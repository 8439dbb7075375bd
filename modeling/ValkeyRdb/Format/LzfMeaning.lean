import ValkeyRdb.Format.Lzf

/-!
# What the LZF decompressor accepts

Every round of the loop takes one literal run or back-reference off the input, in the one
form it can be written in. So the strings that are accepted are the well-formed ones whose
expansion has the expected length, and no such string is stopped by the ratio limit.
-/

namespace ValkeyRdb.Lzf

/-! ### One round -/

theorem copyBackref_gives {offset len : Nat} {output : Bytes} (h0 : 0 < offset)
    (ho : offset ≤ output.length) (h64 : output.length + len < 2 ^ 64) :
    Gives (copyBackref offset len output) (fun out => out = copyBack offset len output) := by
  rw [copyBackref_eq len h0 ho h64]
  rfl

theorem backrefLength_gives (compressed : Bytes) (ctrl i : Nat) :
    Gives (backrefLength compressed ctrl i) (fun r =>
      (ctrl >>> 5 ≠ 7 ∧ r = (ctrl >>> 5, i)) ∨
        ∃ more : UInt8, ctrl >>> 5 = 7 ∧ compressed[i]? = some more ∧
          r = (7 + more.toNat, i + 1)) := by
  refine ExceptMeets.ite (fun h7 => ?_) fun h7 => .inl ⟨h7, rfl⟩
  refine ExceptMeets.ite (fun _ => gives_corrupt) fun _ => ?_
  refine (index_gives compressed i).bind fun more hmore => ?_
  exact .inr ⟨more, h7, hmore, by rw [h7]⟩

/-- The offset of a match, its high bits in the control byte. -/
def matchOffset (ctrl : Nat) (low : UInt8) : Nat := (((ctrl &&& 0x1F) <<< 8) ||| low.toNat) + 1

theorem matchOffset_split (ctrl : Nat) (low : UInt8) :
    (matchOffset ctrl low - 1) / 256 = ctrl % 32 ∧ UInt8.ofNat (matchOffset ctrl low - 1) = low ∧
      0 < matchOffset ctrl low ∧ matchOffset ctrl low ≤ 8192 := by
  have hlow := low.toNat_lt
  have hand : ctrl &&& 0x1F = ctrl % 32 := Nat.and_two_pow_sub_one_eq_mod ctrl 5
  have hsub : matchOffset ctrl low - 1 = 256 * (ctrl % 32) + low.toNat := by
    rw [matchOffset, Nat.add_sub_cancel, shift_or_byte, hand]
  refine ⟨by omega, ?_, Nat.succ_pos _, by omega⟩
  apply UInt8.toNat_inj.mp
  rw [UInt8.toNat_ofNat', hsub]
  omega

theorem copy_short {ctrl : UInt8} (low : UInt8) (hc : 32 ≤ ctrl.toNat)
    (h7 : ctrl.toNat >>> 5 ≠ 7) : ∃ ho hl,
      (Op.copy (matchOffset ctrl.toNat low) (ctrl.toNat >>> 5 + 2) ho hl).bytes = [ctrl, low] := by
  have hlt := ctrl.toNat_lt
  obtain ⟨hhigh, hlow, hpos, hle⟩ := matchOffset_split ctrl.toNat low
  rw [Nat.shiftRight_eq_div_pow] at h7 ⊢
  refine ⟨⟨hpos, hle⟩, by omega, ?_⟩
  have hctrl : ctrl.toNat / 2 ^ 5 * 32 + ctrl.toNat % 32 = ctrl.toNat := by omega
  rw [Op.bytes, if_pos (by omega), Nat.add_sub_cancel, hhigh, hctrl, hlow, UInt8.ofNat_toNat]

theorem copy_long {ctrl : UInt8} (more low : UInt8) (h7 : ctrl.toNat >>> 5 = 7) : ∃ ho hl,
    (Op.copy (matchOffset ctrl.toNat low) (7 + more.toNat + 2) ho hl).bytes =
      [ctrl, more, low] := by
  have hlt := ctrl.toNat_lt
  have hmore := more.toNat_lt
  obtain ⟨hhigh, hlow, hpos, hle⟩ := matchOffset_split ctrl.toNat low
  rw [Nat.shiftRight_eq_div_pow] at h7
  refine ⟨⟨hpos, hle⟩, by omega, ?_⟩
  have hctrl : 7 * 32 + ctrl.toNat % 32 = ctrl.toNat := by omega
  have hlen : 7 + more.toNat + 2 - 9 = more.toNat := by omega
  rw [Op.bytes, if_neg (by omega), hhigh, hctrl, hlen, hlow, UInt8.ofNat_toNat, UInt8.ofNat_toNat]

/-- What a round that succeeds has done: it took one item off the input and expanded it. -/
def Takes (compressed : Bytes) (expectedLen i : Nat) (output : Bytes) (r : Nat × Bytes) : Prop :=
  ∃ op : Op, compressed.drop i = op.bytes ++ compressed.drop r.1 ∧ op.Reaches output ∧
    r.2 = op.expand output ∧ (op.expand output).length ≤ expectedLen

theorem step_gives (compressed : Bytes) (expectedLen i : Nat) (output : Bytes) :
    Gives (step compressed expectedLen i output) (Takes compressed expectedLen i output) := by
  refine (index_gives compressed i).bind fun ctrl hctrl => ?_
  have hdrop := drop_of_getElem? hctrl
  refine ExceptMeets.ite (fun hlit => ?_) fun hcopy => ?_
  · refine (add64_gives _ _).bind fun stop hstop => ?_
    refine (add64_gives _ _).bind fun newLen hnew => ?_
    refine ExceptMeets.ite (fun _ => gives_corrupt) fun hin => ?_
    refine ExceptMeets.ite (fun _ => gives_corrupt) fun hfit => ?_
    refine (slice_gives compressed (i + 1) stop).bind fun run hrun => ?_
    have hlen : run.length = ctrl.toNat + 1 := by omega
    refine ⟨.literal run (by omega), ?_, trivial, rfl, ?_⟩
    · rw [hdrop, hrun.1, Op.bytes, hlen, Nat.add_sub_cancel, UInt8.ofNat_toNat]
      rfl
    · simp only [Op.expand, List.length_append]
      omega
  · refine (backrefLength_gives compressed ctrl.toNat (i + 1)).bind fun r hr => ?_
    obtain ⟨len, j⟩ := r
    refine ExceptMeets.ite (fun _ => gives_corrupt) fun _ => ?_
    refine (index_gives compressed j).bind fun low hlow => ?_
    refine (add64_gives _ _).bind fun newLen hnew => ?_
    refine ExceptMeets.ite (fun _ => gives_corrupt) fun hoff => ?_
    refine ExceptMeets.ite (fun _ => gives_corrupt) fun hfit => ?_
    have hreach : matchOffset ctrl.toNat low ≤ output.length := Nat.le_of_not_lt hoff
    refine (copyBackref_gives (Nat.succ_pos _) hreach (by omega)).bind fun out hout => ?_
    have hlowdrop := drop_of_getElem? hlow
    have hgrow := length_copyBack (matchOffset ctrl.toNat low) (len + 2) output
    rcases hr with ⟨h7, heq⟩ | ⟨more, h7, hmore, heq⟩
    · obtain ⟨rfl, rfl⟩ := Prod.mk.inj heq
      obtain ⟨ho, hl, hbytes⟩ := copy_short low (by omega) h7
      refine ⟨.copy _ _ ho hl, ?_, hreach, hout, ?_⟩
      · rw [hdrop, hlowdrop, hbytes]
        rfl
      · rw [Op.expand, hgrow]
        omega
    · obtain ⟨rfl, rfl⟩ := Prod.mk.inj heq
      obtain ⟨ho, hl, hbytes⟩ := copy_long more low h7
      refine ⟨.copy _ _ ho hl, ?_, hreach, hout, ?_⟩
      · rw [hdrop, drop_of_getElem? hmore, hlowdrop, hbytes]
        rfl
      · rw [Op.expand, hgrow]
        omega

/-! ### Whole strings -/

theorem decompressLoop_parses {compressed : Bytes} {expectedLen fuel i : Nat} {output out : Bytes}
    (h : decompressLoop compressed expectedLen fuel i output = .ok out) :
    ∃ ops : List Op, compressed.drop i = ops.flatMap Op.bytes ∧ AllReach output ops ∧
      out = ops.foldl Op.expand output := by
  induction fuel generalizing i output with
  | zero => cases h
  | succ fuel ih =>
    rw [decompressLoop] at h
    by_cases hi : i < compressed.length
    · rw [if_pos hi] at h
      cases hstep : step compressed expectedLen i output with
      | error e =>
        rw [hstep] at h
        cases h
      | ok r =>
        obtain ⟨op, hbytes, hreach, hout, -⟩ := (step_gives _ _ _ _).of_ok hstep
        rw [hstep, ok_bind] at h
        obtain ⟨ops, hrest, hall, hval⟩ := ih h
        rw [hout] at hall hval
        exact ⟨op :: ops, by rw [hbytes, hrest, List.flatMap_cons], ⟨hreach, hall⟩, hval⟩
    · rw [if_neg hi] at h
      cases h
      exact ⟨[], List.drop_eq_nil_of_le (by omega), trivial, rfl⟩

/-- `decompress` without the check of the ratio. -/
def decompressUnguarded (compressed : Bytes) (expectedLen : Nat) : Res Bytes := do
  let output ← decompressLoop compressed expectedLen (compressed.length + 1) 0 []
  if output.length ≠ expectedLen then
    corrupt s!"LZF decompressed size mismatch: got {output.length}, expected {expectedLen}"
  else pure output

theorem decompress_eq (compressed : Bytes) (expectedLen : Nat) :
    decompress compressed expectedLen =
      if compressed ≠ [] ∧ expectedLen / compressed.length > lzfMaxRatio then
        corrupt s!"LZF decompression ratio too high: {compressed.length} -> {expectedLen} (max {lzfMaxRatio}x)"
      else decompressUnguarded compressed expectedLen := rfl

theorem decompressUnguarded_parses {compressed : Bytes} {expectedLen : Nat} {out : Bytes}
    (h : decompressUnguarded compressed expectedLen = .ok out) :
    ∃ f : Form, f.bytes = compressed ∧ f.value.length = expectedLen ∧ out = f.value := by
  rw [decompressUnguarded] at h
  cases hloop : decompressLoop compressed expectedLen (compressed.length + 1) 0 [] with
  | error e =>
    rw [hloop] at h
    cases h
  | ok output =>
    obtain ⟨ops, hbytes, hreach, hval⟩ := decompressLoop_parses hloop
    rw [hloop, ok_bind] at h
    by_cases hlen : output.length ≠ expectedLen
    · rw [if_pos hlen] at h
      cases h
    · rw [if_neg hlen] at h
      cases h
      exact ⟨⟨ops, hreach⟩, hbytes.symm, by rw [← not_not.mp hlen, hval]; rfl, hval⟩

/-- The decompressor returns the expansion of the well-formed strings whose expansion has
the expected length, and of no others. -/
theorem decompress_ok_iff (compressed : Bytes) (expectedLen : Nat) (out : Bytes)
    (hc : compressed.length ≤ maxSliceLen) (he : expectedLen < 2 ^ 64)
    (hratio : compressed = [] ∨ expectedLen / compressed.length ≤ 1024) :
    decompress compressed expectedLen = .ok out ↔
      ∃ f : Form, f.bytes = compressed ∧ f.value.length = expectedLen ∧ out = f.value := by
  constructor
  · intro h
    have hguard : ¬(compressed ≠ [] ∧ expectedLen / compressed.length > lzfMaxRatio) := by
      rintro ⟨hne, hgt⟩
      rcases hratio with hnil | hle
      · exact hne hnil
      · exact absurd hgt (Nat.not_lt.mpr hle)
    rw [decompress_eq, if_neg hguard] at h
    exact decompressUnguarded_parses h
  · rintro ⟨f, rfl, rfl, rfl⟩
    have hb : f.bytes.length < 2 ^ 63 := by
      rw [maxSliceLen] at hc
      omega
    exact decompress_form f hb he

/-- Two letters, then four more from a match that overlaps what it writes. -/
def overlapForm : Form where
  ops := [.literal [98, 99] (by decide), .copy 2 4 (by decide) (by decide)]
  reach := by simp [AllReach, Op.Reaches, Op.expand]

theorem decompress_ok_iff_overlap :
    decompress [1, 98, 99, 0x40, 1] 6 = .ok [98, 99, 98, 99, 98, 99] :=
  (decompress_ok_iff [1, 98, 99, 0x40, 1] 6 [98, 99, 98, 99, 98, 99] (by decide) (by decide)
    (.inr (by decide))).mpr ⟨overlapForm, by decide, by decide, by decide⟩

/-- The check of the ratio stops nothing that can be decoded. -/
theorem decompress_of_unguarded (compressed : Bytes) (expectedLen : Nat) (out : Bytes)
    (h : decompressUnguarded compressed expectedLen = .ok out) :
    decompress compressed expectedLen = .ok out ∧
      out.length ≤ lzfMaxRatio * compressed.length := by
  obtain ⟨f, rfl, rfl, rfl⟩ := decompressUnguarded_parses h
  have hle := f.length_value_le
  refine ⟨by rw [decompress_eq, if_neg f.within_ratio, h], ?_⟩
  rw [lzfMaxRatio]
  omega

theorem decompress_of_unguarded_run :
    decompress [0, 97, 0xE0, 255, 0] 265 = .ok (List.replicate 265 97) ∧
      (List.replicate 265 (97 : UInt8)).length ≤
        lzfMaxRatio * ([0, 97, 0xE0, 255, 0] : Bytes).length :=
  decompress_of_unguarded [0, 97, 0xE0, 255, 0] 265 (List.replicate 265 97) (by decide +kernel)

end ValkeyRdb.Lzf
