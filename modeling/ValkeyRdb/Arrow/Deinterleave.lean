import Mathlib.Data.BitVec
import ValkeyRdb.Lib.SpacedBits
import ValkeyRdb.Arrow.Detect

/-!
# The cell of a geohash (detect.rs)

A geohash has the bits of the latitude cell at the even places and those of the longitude
cell at the odd ones.
-/

namespace ValkeyRdb

/-! ### Interleaving (detect.rs:143-158) -/

/-- One round of the bit scattering in `interleave64`. -/
def scatter (x : BitVec 64) (shift : Nat) (mask : BitVec 64) : BitVec 64 :=
  (x ||| (x <<< shift)) &&& mask

def spreadBits (x : BitVec 64) : BitVec 64 :=
  let x := scatter x 16 0x0000FFFF0000FFFF#64
  let x := scatter x 8 0x00FF00FF00FF00FF#64
  let x := scatter x 4 0x0F0F0F0F0F0F0F0F#64
  let x := scatter x 2 0x3333333333333333#64
  scatter x 1 0x5555555555555555#64

def interleave64 (x y : BitVec 32) : BitVec 64 :=
  spreadBits (x.setWidth 64) ||| (spreadBits (y.setWidth 64) <<< 1)

/-! ### The masks -/

theorem blockMask_1 : BlockMask 1 0x5555555555555555#64 := by unfold BlockMask; decide +kernel

theorem blockMask_2 : BlockMask 2 0x3333333333333333#64 := by unfold BlockMask; decide +kernel

theorem blockMask_4 : BlockMask 4 0x0F0F0F0F0F0F0F0F#64 := by unfold BlockMask; decide +kernel

theorem blockMask_8 : BlockMask 8 0x00FF00FF00FF00FF#64 := by unfold BlockMask; decide +kernel

theorem blockMask_16 : BlockMask 16 0x0000FFFF0000FFFF#64 := by unfold BlockMask; decide +kernel

theorem blockMask_32 : BlockMask 32 0x00000000FFFFFFFF#64 := by unfold BlockMask; decide +kernel

/-! ### Both directions -/

theorem evenBits_spaced (x : BitVec 64) : Spaced 32 (evenPlaces x) (evenBits x) := by
  have h1 : Spaced 1 (evenPlaces x) (gather x 0 0x5555555555555555#64) := by
    have heven := Spaced.mask_even x blockMask_1
    rwa [gather, BitVec.ushiftRight_zero, BitVec.or_self]
  have h2 : Spaced 2 (evenPlaces x) (gather _ 1 0x3333333333333333#64) :=
    h1.join blockMask_2 (by decide) (by decide)
  have h4 : Spaced 4 (evenPlaces x) (gather _ 2 0x0F0F0F0F0F0F0F0F#64) :=
    h2.join blockMask_4 (by decide) (by decide)
  have h8 : Spaced 8 (evenPlaces x) (gather _ 4 0x00FF00FF00FF00FF#64) :=
    h4.join blockMask_8 (by decide) (by decide)
  have h16 : Spaced 16 (evenPlaces x) (gather _ 8 0x0000FFFF0000FFFF#64) :=
    h8.join blockMask_16 (by decide) (by decide)
  exact h16.join blockMask_32 (by decide) (by decide)

theorem spaced_setWidth (x : BitVec 32) : Spaced 32 x.getLsbD (x.setWidth 64) := by
  intro p hp
  have hmod : p % (2 * 32) = p := Nat.mod_eq_of_lt hp
  have hdiv : p / (2 * 32) = 0 := Nat.div_eq_of_lt hp
  rw [BitVec.getLsbD_setWidth, hmod, hdiv, Nat.zero_mul, Nat.zero_add, decide_eq_true hp,
    Bool.true_and]
  by_cases h32 : p < 32
  · rw [decide_eq_true h32, Bool.true_and]
  · rw [decide_eq_false h32, Bool.false_and, BitVec.getLsbD_of_ge _ _ (by omega)]

theorem spreadBits_spaced (x : BitVec 32) : Spaced 1 x.getLsbD (spreadBits (x.setWidth 64)) := by
  have h16 : Spaced 16 x.getLsbD (scatter _ 16 0x0000FFFF0000FFFF#64) :=
    (spaced_setWidth x).split blockMask_16 (by decide)
  have h8 : Spaced 8 x.getLsbD (scatter _ 8 0x00FF00FF00FF00FF#64) := h16.split blockMask_8 (by decide)
  have h4 : Spaced 4 x.getLsbD (scatter _ 4 0x0F0F0F0F0F0F0F0F#64) := h8.split blockMask_4 (by decide)
  have h2 : Spaced 2 x.getLsbD (scatter _ 2 0x3333333333333333#64) := h4.split blockMask_2 (by decide)
  exact h2.split blockMask_1 (by decide)

theorem interleave64_even (x y : BitVec 32) (i : Nat) :
    (interleave64 x y).getLsbD (2 * i) = x.getLsbD i := by
  obtain ⟨hx, -⟩ := Spaced.one_iff.mp (spreadBits_spaced x)
  obtain ⟨-, hy⟩ := Spaced.one_iff.mp (spreadBits_spaced y)
  by_cases hi : 2 * i < 64
  · have hshift : (spreadBits (y.setWidth 64) <<< 1).getLsbD (2 * i) = false := by
      cases i with
      | zero => simp
      | succ i =>
        have hplace : 2 * (i + 1) - 1 = 2 * i + 1 := by omega
        rw [BitVec.getLsbD_shiftLeft, hplace, hy, Bool.and_false]
    rw [interleave64, BitVec.getLsbD_or, hshift, hx i hi, Bool.or_false]
  · rw [BitVec.getLsbD_of_ge _ _ (by omega), BitVec.getLsbD_of_ge _ _ (by omega)]

theorem interleave64_odd (x y : BitVec 32) (i : Nat) :
    (interleave64 x y).getLsbD (2 * i + 1) = y.getLsbD i := by
  obtain ⟨-, hx⟩ := Spaced.one_iff.mp (spreadBits_spaced x)
  obtain ⟨hy, -⟩ := Spaced.one_iff.mp (spreadBits_spaced y)
  by_cases hi : 2 * i + 1 < 64
  · rw [interleave64, BitVec.getLsbD_or, hx, Bool.false_or, BitVec.getLsbD_shiftLeft,
      decide_eq_true hi, decide_eq_false (by omega), Nat.add_sub_cancel, hy i (by omega)]
    rfl
  · rw [BitVec.getLsbD_of_ge _ _ (by omega), BitVec.getLsbD_of_ge _ _ (by omega)]

theorem evenBits_low (x : BitVec 64) {i : Nat} (hi : i < 32) :
    (evenBits x).getLsbD i = x.getLsbD (2 * i) := by
  have hbit := (evenBits_spaced x).block (q := 0) hi (by omega)
  simpa only [Nat.zero_mul, Nat.zero_add, evenPlaces] using hbit

theorem evenBits_high (x : BitVec 64) {i : Nat} (hi : 32 ≤ i) : (evenBits x).getLsbD i = false := by
  by_cases h64 : i < 64
  · have hbit := (evenBits_spaced x).room (q := 0) hi (by omega)
    simpa only [Nat.zero_mul, Nat.zero_add] using hbit
  · exact BitVec.getLsbD_of_ge _ _ (by omega)

theorem deinterleave64_low (w : BitVec 64) {i : Nat} (hi : i < 32) :
    (deinterleave64 w).getLsbD i = w.getLsbD (2 * i) := by
  rw [deinterleave64, BitVec.getLsbD_or, evenBits_low w hi, BitVec.getLsbD_shiftLeft,
    decide_eq_true hi]
  simp

theorem deinterleave64_high (w : BitVec 64) {i : Nat} (hi : i < 32) :
    (deinterleave64 w).getLsbD (32 + i) = w.getLsbD (2 * i + 1) := by
  have hplace : 32 + i - 32 = i := Nat.add_sub_cancel_left 32 i
  rw [deinterleave64, BitVec.getLsbD_or, evenBits_high w (Nat.le_add_right 32 i), Bool.false_or,
    BitVec.getLsbD_shiftLeft, decide_eq_true (by omega), decide_eq_false (by omega), hplace,
    evenBits_low _ hi, BitVec.getLsbD_ushiftRight, Nat.add_comm]
  rfl

theorem deinterleave64_interleave64 (x y : BitVec 32) :
    deinterleave64 (interleave64 x y) = x.setWidth 64 ||| (y.setWidth 64 <<< 32) := by
  have heven : evenBits (interleave64 x y) = x.setWidth 64 := by
    have hspaced := evenBits_spaced (interleave64 x y)
    exact (hspaced.congr fun i => interleave64_even x y i).ext (spaced_setWidth x)
  have hodd : evenBits (interleave64 x y >>> 1) = y.setWidth 64 := by
    have hspaced := evenBits_spaced (interleave64 x y >>> 1)
    refine (hspaced.congr fun i => ?_).ext (spaced_setWidth y)
    rw [evenPlaces, BitVec.getLsbD_ushiftRight, Nat.add_comm, interleave64_odd]
  rw [deinterleave64, heven, hodd]

/-! ### The grid of cells -/

theorem deinterleave64_cells {w : BitVec 64} (h : w.toNat < 2 ^ 52) :
    (deinterleave64 w).toNat % 2 ^ 32 < 2 ^ 26 ∧
      (deinterleave64 w >>> 32).toNat % 2 ^ 32 < 2 ^ 26 := by
  have hbit : ∀ i, 52 ≤ i → w.getLsbD i = false := fun i hi =>
    Nat.testBit_lt_two_pow (lt_of_lt_of_le h (Nat.pow_le_pow_right (by decide) hi))
  constructor
  · refine Nat.lt_pow_two_of_testBit _ fun i hi => ?_
    rw [Nat.testBit_mod_two_pow]
    by_cases h32 : i < 32
    · have hlow : (deinterleave64 w).toNat.testBit i = false :=
        (deinterleave64_low w h32).trans (hbit _ (by omega))
      rw [hlow, Bool.and_false]
    · rw [decide_eq_false h32, Bool.false_and]
  · refine Nat.lt_pow_two_of_testBit _ fun i hi => ?_
    rw [Nat.testBit_mod_two_pow]
    by_cases h32 : i < 32
    · have hhigh : (deinterleave64 w >>> 32).getLsbD i = false := by
        rw [BitVec.getLsbD_ushiftRight]
        exact (deinterleave64_high w h32).trans (hbit _ (by omega))
      have hhigh' : (deinterleave64 w >>> 32).toNat.testBit i = false := hhigh
      rw [hhigh', Bool.and_false]
    · rw [decide_eq_false h32, Bool.false_and]

/-- A score that is decoded is a cell of the grid of `2^26` by `2^26`. -/
theorem geohashDecode_cell {score : F64} {point : F64 × F64}
    (h : geohashDecode score = some point) :
    ∃ ilono < 2 ^ 26, ∃ ilato < 2 ^ 26, point = (cellCenter (-180) 180 ilono,
      cellCenter (-F64.round (8505112878 / 100000000)) (F64.round (8505112878 / 100000000)) ilato) := by
  rw [geohashDecode] at h
  cases hq : score.value with
  | none =>
    rw [hq] at h
    cases h
  | some q =>
    rw [hq] at h
    dsimp only at h
    by_cases hbad : q < 0 ∨ q.den ≠ 1 ∨ 2 ^ 52 ≤ q
    · rw [if_pos hbad] at h
      cases h
    · rw [if_neg hbad] at h
      rw [not_or, not_or, not_lt, not_le, not_not] at hbad
      obtain ⟨hpos, hint, hlt⟩ := hbad
      have hnum : (q.num : ℚ) = q := Rat.coe_int_num_of_den_eq_one hint
      have hbits : (BitVec.ofNat 64 q.num.toNat).toNat < 2 ^ 52 := by
        have hsmall : q.num < 2 ^ 52 := by
          rw [← hnum] at hlt
          exact_mod_cast hlt
        rw [BitVec.toNat_ofNat]
        omega
      obtain ⟨hlato, hlono⟩ := deinterleave64_cells hbits
      exact ⟨_, hlono, _, hlato, (Option.some.inj h).symm⟩

/-- Deinterleaving takes the even and the odd bits apart; it undoes interleaving, and the
two halves of a geohash are indices of the grid. -/
theorem deinterleave64_inverts :
    (∀ (w : BitVec 64), ∀ i < 32, (deinterleave64 w).getLsbD i = w.getLsbD (2 * i) ∧
      (deinterleave64 w).getLsbD (32 + i) = w.getLsbD (2 * i + 1)) ∧
    (∀ x y : BitVec 32,
      deinterleave64 (interleave64 x y) = x.setWidth 64 ||| (y.setWidth 64 <<< 32)) ∧
    (∀ w : BitVec 64, w.toNat < 2 ^ 52 → (deinterleave64 w).toNat % 2 ^ 32 < 2 ^ 26 ∧
      (deinterleave64 w >>> 32).toNat % 2 ^ 32 < 2 ^ 26) ∧
    (∀ score point, geohashDecode score = some point → ∃ ilono < 2 ^ 26, ∃ ilato < 2 ^ 26,
      point = (cellCenter (-180) 180 ilono, cellCenter (-F64.round (8505112878 / 100000000))
        (F64.round (8505112878 / 100000000)) ilato)) :=
  ⟨fun w _ hi => ⟨deinterleave64_low w hi, deinterleave64_high w hi⟩, deinterleave64_interleave64,
    fun _ hw => deinterleave64_cells hw, fun _ _ h => geohashDecode_cell h⟩

theorem deinterleave64_inverts_rome :
    deinterleave64 (interleave64 50065025 35880437) = (50065025 + 35880437 * 2 ^ 32) ∧
      (deinterleave64 3479099956230698#64).toNat % 2 ^ 32 < 2 ^ 26 :=
  ⟨by rw [deinterleave64_inverts.2.1]; decide +kernel,
    (deinterleave64_inverts.2.2.1 3479099956230698#64 (by decide +kernel)).1⟩

end ValkeyRdb
