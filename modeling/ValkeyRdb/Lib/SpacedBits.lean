import Mathlib.Algebra.Ring.Parity
import Mathlib.Tactic.Ring

/-!
# Bits kept apart

A bit sequence is stored in a word in blocks of `n` bits with as much room behind each.
One shift and one mask double the blocks, or halve them.
-/

namespace ValkeyRdb

variable {w : Nat}

/-- Bit `i` of `f` stands in block `i / n`, at the place `i % n`; the room is clear. -/
def Spaced (n : Nat) (f : Nat → Bool) (x : BitVec w) : Prop :=
  ∀ p < w, x.getLsbD p = (decide (p % (2 * n) < n) && f (p / (2 * n) * n + p % (2 * n)))

def evenPlaces (x : BitVec w) (i : Nat) : Bool := x.getLsbD (2 * i)

def BlockMask (n : Nat) (m : BitVec w) : Prop :=
  ∀ p < w, m.getLsbD p = decide (p % (2 * n) < n)

namespace Spaced

variable {n : Nat} {f g : Nat → Bool} {x y m : BitVec w}

theorem block (h : Spaced n f x) {q r : Nat} (hr : r < n) (hp : q * (2 * n) + r < w) :
    x.getLsbD (q * (2 * n) + r) = f (q * n + r) := by
  have hmod : (q * (2 * n) + r) % (2 * n) = r := by
    rw [Nat.mul_add_mod', Nat.mod_eq_of_lt (by omega)]
  have hdiv : (q * (2 * n) + r) / (2 * n) = q := by
    rw [Nat.add_comm, Nat.add_mul_div_right _ _ (by omega), Nat.div_eq_of_lt (by omega), Nat.zero_add]
  rw [h _ hp, hmod, hdiv, decide_eq_true hr, Bool.true_and]

theorem room (h : Spaced n f x) {q r : Nat} (hr : n ≤ r) (hlt : r < 2 * n) :
    x.getLsbD (q * (2 * n) + r) = false := by
  by_cases hp : q * (2 * n) + r < w
  · have hmod : (q * (2 * n) + r) % (2 * n) = r := by
      rw [Nat.mul_add_mod', Nat.mod_eq_of_lt hlt]
    rw [h _ hp, hmod, decide_eq_false (by omega), Bool.false_and]
  · exact BitVec.getLsbD_of_ge _ _ (by omega)

/-- Enough for a word to be spaced: its blocks and its room. -/
theorem of_blocks (hn : 0 < n)
    (hblock : ∀ q r, r < n → q * (2 * n) + r < w → x.getLsbD (q * (2 * n) + r) = f (q * n + r))
    (hroom : ∀ q r, n ≤ r → r < 2 * n → q * (2 * n) + r < w →
      x.getLsbD (q * (2 * n) + r) = false) : Spaced n f x := by
  intro p hp
  have hsplit : p / (2 * n) * (2 * n) + p % (2 * n) = p := Nat.div_add_mod' p (2 * n)
  have hlt : p % (2 * n) < 2 * n := Nat.mod_lt _ (by omega)
  by_cases hr : p % (2 * n) < n
  · have hbit := hblock (p / (2 * n)) (p % (2 * n)) hr (by omega)
    rw [hsplit] at hbit
    rw [hbit, decide_eq_true hr, Bool.true_and]
  · have hbit := hroom (p / (2 * n)) (p % (2 * n)) (by omega) hlt (by omega)
    rw [hsplit] at hbit
    rw [hbit, decide_eq_false hr, Bool.false_and]

theorem ext (h : Spaced n f x) (h' : Spaced n f y) : x = y := by
  apply BitVec.eq_of_getLsbD_eq
  intro p hp
  rw [h p hp, h' p hp]

theorem congr (h : Spaced n f x) (hfg : ∀ i, f i = g i) : Spaced n g x := by
  intro p hp
  rw [h p hp, hfg]

/-- Blocks that are single bits: the even places. -/
theorem one_iff : Spaced 1 f x ↔
    (∀ i, 2 * i < w → x.getLsbD (2 * i) = f i) ∧ ∀ i, x.getLsbD (2 * i + 1) = false := by
  constructor
  · intro h
    refine ⟨fun i hi => ?_, fun i => ?_⟩
    · have hbit := h.block (q := i) (r := 0) (by decide) (by omega)
      simp only [Nat.mul_one, Nat.add_zero] at hbit
      rwa [Nat.mul_comm] at hbit
    · have hbit := h.room (q := i) (r := 1) (by decide) (by decide)
      rwa [Nat.mul_one, Nat.mul_comm] at hbit
  · rintro ⟨heven, hodd⟩
    refine of_blocks (by decide) (fun q r hr hp => ?_) fun q r hr hlt _ => ?_
    · obtain rfl : r = 0 := by omega
      simp only [Nat.mul_one, Nat.add_zero] at hp ⊢
      rw [Nat.mul_comm, heven q (by omega)]
    · obtain rfl : r = 1 := by omega
      rw [Nat.mul_one, Nat.mul_comm, hodd]

theorem mask_even (x : BitVec w) (hm : BlockMask 1 m) :
    Spaced 1 (evenPlaces x) (x &&& m) := by
  refine one_iff.mpr ⟨fun i hi => ?_, fun i => ?_⟩
  · rw [BitVec.getLsbD_and, hm _ hi, decide_eq_true (by omega), Bool.and_true, evenPlaces]
  · by_cases hi : 2 * i + 1 < w
    · rw [BitVec.getLsbD_and, hm _ hi, decide_eq_false (by omega), Bool.and_false]
    · exact BitVec.getLsbD_of_ge _ _ (by omega)

/-- Every other block moves down into the room in front of it. -/
theorem join (h : Spaced n f x) (hm : BlockMask (2 * n) m) (hn : 0 < n) (hw : 2 * (2 * n) ∣ w) :
    Spaced (2 * n) f ((x ||| (x >>> n)) &&& m) := by
  obtain ⟨k, rfl⟩ := hw
  refine of_blocks (by omega) (fun q r hr hp => ?_) fun q r hr hlt hp => ?_
  · have hmod : (q * (2 * (2 * n)) + r) % (2 * (2 * n)) = r := by
      rw [Nat.mul_add_mod', Nat.mod_eq_of_lt (by omega)]
    have hbit : ((x ||| (x >>> n)) &&& m).getLsbD (q * (2 * (2 * n)) + r) =
        (x.getLsbD (q * (2 * (2 * n)) + r) || x.getLsbD (n + (q * (2 * (2 * n)) + r))) := by
      rw [BitVec.getLsbD_and, BitVec.getLsbD_or, BitVec.getLsbD_ushiftRight, hm _ hp, hmod,
        decide_eq_true hr, Bool.and_true]
    have hpair : q * (2 * (2 * n)) = 2 * q * (2 * n) := by ring
    rw [hbit]
    by_cases hfirst : r < n
    · have hhere : x.getLsbD (2 * q * (2 * n) + r) = f (2 * q * n + r) := h.block hfirst (by omega)
      have hthere : x.getLsbD (2 * q * (2 * n) + (r + n)) = false := h.room (by omega) (by omega)
      have hplace : n + (q * (2 * (2 * n)) + r) = 2 * q * (2 * n) + (r + n) := by omega
      have hindex : q * (2 * n) = 2 * q * n := by ring
      rw [hplace, hthere, hpair, hhere, Bool.or_false, hindex]
    · have hqk : q < k := by
        by_contra hge
        have hle := Nat.mul_le_mul_left (2 * (2 * n)) (Nat.le_of_not_lt hge)
        rw [Nat.mul_comm] at hp
        omega
      have hend : 2 * (2 * n) * (q + 1) ≤ 2 * (2 * n) * k := Nat.mul_le_mul_left _ hqk
      have hodd : (2 * q + 1) * (2 * n) = 2 * q * (2 * n) + 2 * n := by ring
      have hroom : 2 * (2 * n) * (q + 1) = 2 * q * (2 * n) + 2 * (2 * n) := by ring
      have hhere : x.getLsbD (2 * q * (2 * n) + r) = false := h.room (by omega) (by omega)
      have hthere : x.getLsbD ((2 * q + 1) * (2 * n) + (r - n)) = f ((2 * q + 1) * n + (r - n)) :=
        h.block (by omega) (by omega)
      have hplace : n + (q * (2 * (2 * n)) + r) = (2 * q + 1) * (2 * n) + (r - n) := by omega
      have hindex : (2 * q + 1) * n + (r - n) = q * (2 * n) + r := by
        have hprod : (2 * q + 1) * n = q * (2 * n) + n := by ring
        omega
      rw [hplace, hthere, hpair, hhere, Bool.false_or, hindex]
  · have hmod : (q * (2 * (2 * n)) + r) % (2 * (2 * n)) = r := by
      rw [Nat.mul_add_mod', Nat.mod_eq_of_lt hlt]
    rw [BitVec.getLsbD_and, hm _ hp, hmod, decide_eq_false (by omega), Bool.and_false]

/-- The upper half of every block moves up into the room behind it. -/
theorem split (h : Spaced (2 * n) f x) (hm : BlockMask n m) (hn : 0 < n) :
    Spaced n f ((x ||| (x <<< n)) &&& m) := by
  refine of_blocks hn (fun q r hr hp => ?_) fun q r hr hlt hp => ?_
  · have hmod : (q * (2 * n) + r) % (2 * n) = r := by
      rw [Nat.mul_add_mod', Nat.mod_eq_of_lt (by omega)]
    have hbit : ((x ||| (x <<< n)) &&& m).getLsbD (q * (2 * n) + r) =
        (x.getLsbD (q * (2 * n) + r) ||
          (!decide (q * (2 * n) + r < n) && x.getLsbD (q * (2 * n) + r - n))) := by
      rw [BitVec.getLsbD_and, BitVec.getLsbD_or, BitVec.getLsbD_shiftLeft, hm _ hp, hmod,
        decide_eq_true hr, decide_eq_true hp, Bool.and_true, Bool.true_and]
    rw [hbit]
    obtain ⟨t, rfl | rfl⟩ := q.even_or_odd'
    · have hpair : 2 * t * (2 * n) = t * (2 * (2 * n)) := by ring
      have hindex : 2 * t * n = t * (2 * n) := by ring
      have hhere : x.getLsbD (t * (2 * (2 * n)) + r) = f (t * (2 * n) + r) :=
        h.block (by omega) (by omega)
      have hthere : (!decide (2 * t * (2 * n) + r < n) && x.getLsbD (2 * t * (2 * n) + r - n)) =
          false := by
        cases t with
        | zero => simp [hr]
        | succ t =>
          have hplace : 2 * (t + 1) * (2 * n) + r - n = t * (2 * (2 * n)) + (3 * n + r) := by
            have hprod : 2 * (t + 1) * (2 * n) = t * (2 * (2 * n)) + 2 * (2 * n) := by ring
            omega
          have hroom : x.getLsbD (t * (2 * (2 * n)) + (3 * n + r)) = false :=
            h.room (by omega) (by omega)
          rw [hplace, hroom, Bool.and_false]
      rw [hthere, hpair, hhere, Bool.or_false, hindex]
    · have hodd : (2 * t + 1) * (2 * n) = t * (2 * (2 * n)) + 2 * n := by ring
      have hindex : (2 * t + 1) * n + r = t * (2 * n) + (n + r) := by ring
      have hhere : x.getLsbD (t * (2 * (2 * n)) + (2 * n + r)) = false :=
        h.room (by omega) (by omega)
      have hplace : (2 * t + 1) * (2 * n) + r - n = t * (2 * (2 * n)) + (n + r) := by omega
      have hthere : x.getLsbD (t * (2 * (2 * n)) + (n + r)) = f (t * (2 * n) + (n + r)) :=
        h.block (by omega) (by omega)
      have hback : ¬(2 * t + 1) * (2 * n) + r < n := by omega
      have hfront : (2 * t + 1) * (2 * n) + r = t * (2 * (2 * n)) + (2 * n + r) := by omega
      rw [hplace, hthere, decide_eq_false hback, hfront, hhere, hindex]
      rfl
  · have hmod : (q * (2 * n) + r) % (2 * n) = r := by
      rw [Nat.mul_add_mod', Nat.mod_eq_of_lt hlt]
    rw [BitVec.getLsbD_and, hm _ hp, hmod, decide_eq_false (by omega), Bool.and_false]

end Spaced

end ValkeyRdb
