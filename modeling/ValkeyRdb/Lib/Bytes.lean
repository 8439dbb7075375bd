import Mathlib.Data.List.Basic
import Mathlib.Tactic.Ring
import Mathlib.Tactic.NormNum
import Mathlib.Tactic.Linarith

/-!
# Byte strings and fixed-width integers

Little- and big-endian values of byte strings, their inverses, and two's
complement integers of a given width. Nothing here is specific to a file format.
-/

namespace ValkeyRdb

abbrev Bytes := List UInt8

def leVal : Bytes → Nat
  | [] => 0
  | b :: rest => b.toNat + 256 * leVal rest

def beVal (bs : Bytes) : Nat := leVal bs.reverse

/-- The `k` low bytes of `n`, least significant first. -/
def leBytes : Nat → Nat → Bytes
  | 0, _ => []
  | k + 1, n => UInt8.ofNat n :: leBytes k (n / 256)

/-- The `k` low bytes of `n`, most significant first. -/
def beBytes (k n : Nat) : Bytes := (leBytes k n).reverse

@[simp] theorem length_leBytes (k n : Nat) : (leBytes k n).length = k := by
  induction k generalizing n with
  | zero => rfl
  | succ k ih => simp [leBytes, ih]

@[simp] theorem length_beBytes (k n : Nat) : (beBytes k n).length = k := by
  simp [beBytes]

theorem toNat_ofNat_of_lt {n : Nat} (h : n < 256) : (UInt8.ofNat n).toNat = n := by
  rw [UInt8.toNat_ofNat']
  exact Nat.mod_eq_of_lt h

theorem leVal_lt (bs : Bytes) : leVal bs < 256 ^ bs.length := by
  induction bs with
  | nil => simp [leVal]
  | cons b rest ih =>
    have hb : b.toNat < 256 := b.toNat_lt
    simp only [leVal, List.length_cons, pow_succ]
    omega

theorem leVal_take_lt (k : Nat) (bs : Bytes) : leVal (bs.take k) < 256 ^ k :=
  lt_of_lt_of_le (leVal_lt (bs.take k))
    (Nat.pow_le_pow_right (by decide) (by rw [List.length_take]; exact Nat.min_le_left k _))

theorem leVal_leBytes (k n : Nat) : leVal (leBytes k n) = n % 256 ^ k := by
  induction k generalizing n with
  | zero => simp [leBytes, leVal, Nat.mod_one]
  | succ k ih =>
    have hpow : 256 ^ (k + 1) = 256 * 256 ^ k := pow_succ' 256 k
    have hbyte : (UInt8.ofNat n).toNat = n % 256 := UInt8.toNat_ofNat'
    simp only [leBytes, leVal, ih]
    rw [hbyte, hpow, Nat.mod_mul]

theorem leVal_leBytes_of_lt {k n : Nat} (h : n < 256 ^ k) : leVal (leBytes k n) = n := by
  rw [leVal_leBytes, Nat.mod_eq_of_lt h]

theorem leBytes_leVal (bs : Bytes) : leBytes bs.length (leVal bs) = bs := by
  induction bs with
  | nil => rfl
  | cons b rest ih =>
    have hb : b.toNat < 256 := b.toNat_lt
    have hlow : UInt8.ofNat (leVal (b :: rest)) = b := by
      apply UInt8.toNat_inj.mp
      rw [UInt8.toNat_ofNat', leVal]
      omega
    have hhigh : leVal (b :: rest) / 256 = leVal rest := by
      rw [leVal]
      omega
    rw [List.length_cons, leBytes, hlow, hhigh, ih]

theorem beVal_lt (bs : Bytes) : beVal bs < 256 ^ bs.length := by
  have h := leVal_lt bs.reverse
  rwa [List.length_reverse] at h

theorem beVal_beBytes_of_lt {k n : Nat} (h : n < 256 ^ k) : beVal (beBytes k n) = n := by
  rw [beVal, beBytes, List.reverse_reverse, leVal_leBytes_of_lt h]

theorem beBytes_beVal (bs : Bytes) : beBytes bs.length (beVal bs) = bs := by
  have h := leBytes_leVal bs.reverse
  rw [List.length_reverse] at h
  rw [beBytes, beVal, h, List.reverse_reverse]

theorem leBytes_take {k : Nat} {bs : Bytes} (h : k ≤ bs.length) :
    leBytes k (leVal (bs.take k)) = bs.take k := by
  have hbytes := leBytes_leVal (bs.take k)
  rwa [List.length_take_of_le h] at hbytes

theorem beVal_take_lt (k : Nat) (bs : Bytes) : beVal (bs.take k) < 256 ^ k :=
  lt_of_lt_of_le (beVal_lt (bs.take k))
    (Nat.pow_le_pow_right (by decide) (by rw [List.length_take]; exact Nat.min_le_left k _))

theorem beBytes_take {k : Nat} {bs : Bytes} (h : k ≤ bs.length) :
    beBytes k (beVal (bs.take k)) = bs.take k := by
  have hbytes := beBytes_beVal (bs.take k)
  rwa [List.length_take_of_le h] at hbytes

theorem shift_or_byte (hi : Nat) (lo : UInt8) : (hi <<< 8) ||| lo.toNat = 256 * hi + lo.toNat := by
  rw [Nat.shiftLeft_eq, Nat.mul_comm, show (2 : Nat) ^ 8 = 256 from rfl]
  exact (Nat.two_pow_add_eq_or_of_lt (i := 8) lo.toNat_lt hi).symm

/-- The signed reading of the low `w` bits of `n`. -/
def signed (w n : Nat) : Int := (BitVec.ofNat w n).toInt

/-- The two's complement bit pattern of `i` in `w` bits. -/
def unsigned (w : Nat) (i : Int) : Nat := (BitVec.ofInt w i).toNat

theorem unsigned_lt (w : Nat) (i : Int) : unsigned w i < 2 ^ w := (BitVec.ofInt w i).isLt

/-- `i` is a value of the signed type of `w` bits. -/
def FitsSigned (w : Nat) (i : Int) : Prop := -(2 ^ (w - 1) : Int) ≤ i ∧ i < 2 ^ (w - 1)

instance (w : Nat) (i : Int) : Decidable (FitsSigned w i) :=
  inferInstanceAs (Decidable (_ ∧ _))

theorem signed_unsigned {w : Nat} {i : Int} (hw : 0 < w) (h : FitsSigned w i) :
    signed w (unsigned w i) = i := by
  obtain ⟨lo, hi⟩ := h
  have hpow : (2 : Int) ^ w = 2 * 2 ^ (w - 1) := by
    rw [← pow_succ', Nat.sub_add_cancel hw]
  rw [signed, unsigned, BitVec.ofNat_toNat, BitVec.setWidth_eq, BitVec.toInt_ofInt]
  apply Int.bmod_eq_of_le <;> push_cast <;> omega

theorem unsigned_signed {w n : Nat} (h : n < 2 ^ w) : unsigned w (signed w n) = n := by
  rw [unsigned, signed, BitVec.ofInt_toInt, BitVec.toNat_ofNat, Nat.mod_eq_of_lt h]

theorem signed_eq {w n : Nat} (h : n < 2 ^ w) :
    signed w n = if 2 * n < 2 ^ w then (n : Int) else (n : Int) - 2 ^ w := by
  rw [signed, BitVec.toInt_eq_toNat_cond, BitVec.toNat_ofNat, Nat.mod_eq_of_lt h]
  push_cast
  rfl

theorem signed_fits {w : Nat} (hw : 0 < w) (n : Nat) : FitsSigned w (signed w n) := by
  have hpow : 2 ^ w = 2 * 2 ^ (w - 1) := by
    rw [← pow_succ', Nat.sub_add_cancel hw]
  refine ⟨?_, ?_⟩
  · have h := BitVec.le_toInt (BitVec.ofNat w n)
    simpa [signed] using h
  · have h := BitVec.toInt_lt (x := BitVec.ofNat w n)
    simpa [signed] using h

end ValkeyRdb
