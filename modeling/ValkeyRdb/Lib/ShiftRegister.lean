import Mathlib.Data.List.Basic

/-!
# Shift registers with feedback

A register of `w` bits moves right one place at a time; when a one falls out, a fixed word
is added to it. The addition is exclusive or, so a step is linear, and when the top bit of
the word is set the bit that fell out can be read back and a step is injective.
-/

namespace ValkeyRdb.ShiftRegister

variable {w : Nat} (poly : BitVec w)

/-- One step of the register: right by one place, with the feedback of the bit that falls out. -/
def step (s : BitVec w) : BitVec w :=
  if s.getLsbD 0 then (s >>> 1) ^^^ poly else s >>> 1

def steps : Nat → BitVec w → BitVec w
  | 0, s => s
  | n + 1, s => steps n (step poly s)

/-- A symbol of `k` bits is added to the low end, then the register moves `k` places. -/
def feed (k : Nat) (s : BitVec w) (x : BitVec k) : BitVec w :=
  steps poly k (s ^^^ x.setWidth w)

/-! ### Linearity -/

theorem step_xor (a b : BitVec w) : step poly (a ^^^ b) = step poly a ^^^ step poly b := by
  unfold step
  simp only [BitVec.getLsbD_xor, BitVec.ushiftRight_xor_distrib]
  cases ha : a.getLsbD 0 with
  | false =>
    cases hb : b.getLsbD 0 with
    | false => simp
    | true => simp [BitVec.xor_assoc]
  | true =>
    cases hb : b.getLsbD 0 with
    | false => simp [BitVec.xor_assoc, BitVec.xor_comm poly]
    | true =>
      have hcancel : poly ^^^ (b >>> 1 ^^^ poly) = b >>> 1 := by
        rw [BitVec.xor_comm (b >>> 1), ← BitVec.xor_assoc, BitVec.xor_self, BitVec.zero_xor]
      simp [BitVec.xor_assoc, hcancel]

theorem steps_xor (n : Nat) (a b : BitVec w) :
    steps poly n (a ^^^ b) = steps poly n a ^^^ steps poly n b := by
  induction n generalizing a b with
  | zero => rfl
  | succ n ih => simp only [steps, step_xor, ih]

theorem steps_add (m n : Nat) (s : BitVec w) :
    steps poly (m + n) s = steps poly n (steps poly m s) := by
  induction m generalizing s with
  | zero => rw [Nat.zero_add, steps]
  | succ m ih => rw [Nat.succ_add, steps, steps, ih]

/-- While only zeros fall out, the register just moves. -/
theorem steps_low_zero (n : Nat) (s : BitVec w) (h : ∀ i < n, s.getLsbD i = false) :
    steps poly n s = s >>> n := by
  induction n generalizing s with
  | zero => simp [steps]
  | succ n ih =>
    have hstep : step poly s = s >>> 1 := by
      unfold step
      rw [h 0 (Nat.succ_pos n)]
      rfl
    have hlow : ∀ i < n, (s >>> 1).getLsbD i = false := by
      intro i hi
      rw [BitVec.getLsbD_ushiftRight]
      exact h (1 + i) (by omega)
    rw [steps, hstep, ih _ hlow, ← BitVec.shiftRight_add, Nat.add_comm]

/-! ### Tables -/

/-- The mask of the `k` low bits. -/
def lowMask (w k : Nat) : BitVec w := (BitVec.allOnes k).setWidth w

theorem getLsbD_lowMask (k i : Nat) : (lowMask w k).getLsbD i = (decide (i < w) && decide (i < k)) := by
  simp [lowMask]

/-- What `k` steps do to the low `k` bits can be looked up; the others move down. -/
theorem steps_table (k : Nat) (s : BitVec w) :
    steps poly k s = steps poly k (s &&& lowMask w k) ^^^ (s >>> k) := by
  have hsplit : s = (s &&& lowMask w k) ^^^ (s &&& ~~~lowMask w k) := by
    apply BitVec.eq_of_getLsbD_eq
    intro i hi
    simp only [BitVec.getLsbD_xor, BitVec.getLsbD_and, BitVec.getLsbD_not, getLsbD_lowMask, hi]
    cases s.getLsbD i <;> simp
  have hlow : ∀ i < k, (s &&& ~~~lowMask w k).getLsbD i = false := by
    intro i hi
    simp only [BitVec.getLsbD_and, BitVec.getLsbD_not, getLsbD_lowMask, hi]
    cases s.getLsbD i <;> simp
  have hhigh : (s &&& ~~~lowMask w k) >>> k = s >>> k := by
    apply BitVec.eq_of_getLsbD_eq
    intro i hi
    have hge : ¬k + i < k := by omega
    simp only [BitVec.getLsbD_ushiftRight, BitVec.getLsbD_and, BitVec.getLsbD_not, getLsbD_lowMask,
      hge]
    by_cases hin : k + i < w
    · simp [hin]
    · simp [BitVec.getLsbD_of_ge s (k + i) (by omega)]
  conv => lhs; rw [hsplit]
  rw [steps_xor, steps_low_zero poly k _ hlow, hhigh]

/-! ### Injectivity -/

theorem step_eq_zero (h : poly.msb = true) {s : BitVec w} (hs : step poly s = 0#w) : s = 0#w := by
  have hpoly : poly.getLsbD (w - 1) = true := by rwa [BitVec.msb_eq_getLsbD_last] at h
  have hw : 0 < w := by
    by_contra h0
    rw [BitVec.getLsbD_of_ge poly (w - 1) (by omega)] at hpoly
    exact Bool.noConfusion hpoly
  -- the bit that falls out is the top bit of what the step returns
  have hzero : s.getLsbD 0 = false := by
    by_contra hone
    have htop : (step poly s).getLsbD (w - 1) = true := by
      unfold step
      rw [if_pos (by simpa using hone), BitVec.getLsbD_xor, BitVec.getLsbD_ushiftRight,
        BitVec.getLsbD_of_ge s (1 + (w - 1)) (by omega), hpoly]
      rfl
    rw [hs] at htop
    simp at htop
  have hshift : s >>> 1 = 0#w := by
    unfold step at hs
    rwa [hzero] at hs
  apply BitVec.eq_of_getLsbD_eq
  intro i hi
  cases i with
  | zero => rw [hzero, BitVec.getLsbD_zero]
  | succ i =>
    have hbit := congrArg (fun x : BitVec w => x.getLsbD i) hshift
    simpa [BitVec.getLsbD_ushiftRight, Nat.add_comm] using hbit

theorem steps_eq_zero (h : poly.msb = true) (n : Nat) {s : BitVec w}
    (hs : steps poly n s = 0#w) : s = 0#w := by
  induction n generalizing s with
  | zero => exact hs
  | succ n ih => exact step_eq_zero poly h (ih hs)

theorem steps_injective (h : poly.msb = true) (n : Nat) {a b : BitVec w}
    (hab : steps poly n a = steps poly n b) : a = b := by
  have hdiff : steps poly n (a ^^^ b) = 0#w := by rw [steps_xor, hab, BitVec.xor_self]
  exact BitVec.xor_eq_zero_iff.mp (steps_eq_zero poly h n hdiff)

/-! ### Strings of symbols -/

variable {k : Nat}

/-- The symbols of a string side by side, the first one lowest. -/
def pack : List (BitVec k) → BitVec w
  | [] => 0#w
  | x :: xs => x.setWidth w ^^^ (pack xs <<< k)

theorem getLsbD_pack (xs : List (BitVec k)) (i : Nat) (h : k * xs.length ≤ i) :
    (pack xs : BitVec w).getLsbD i = false := by
  induction xs generalizing i with
  | nil => simp [pack]
  | cons x xs ih =>
    rw [List.length_cons, Nat.mul_succ] at h
    have hx : x.getLsbD i = false := BitVec.getLsbD_of_ge x i (by omega)
    have hrest := ih (i - k) (by omega)
    simp [pack, hx, hrest]

/-- The rest of a string that fits the register comes back when its first symbol is out. -/
theorem pack_shift (xs : List (BitVec k)) (h : k * (xs.length + 1) ≤ w) :
    ((pack xs : BitVec w) <<< k) >>> k = pack xs := by
  rw [Nat.mul_succ] at h
  apply BitVec.eq_of_getLsbD_eq
  intro i hi
  rw [BitVec.getLsbD_ushiftRight, BitVec.getLsbD_shiftLeft]
  by_cases hin : k + i < w
  · simp [hin]
  · have hclear : (pack xs : BitVec w).getLsbD i = false := getLsbD_pack xs i (by omega)
    simp [hin, hclear]

theorem pack_injective {xs ys : List (BitVec k)} (hlen : xs.length = ys.length)
    (h : k * xs.length ≤ w) (heq : (pack xs : BitVec w) = pack ys) : xs = ys := by
  induction xs generalizing ys with
  | nil => exact (List.length_eq_zero_iff.mp hlen.symm).symm
  | cons x xs ih =>
    cases ys with
    | nil => simp at hlen
    | cons y ys =>
      have hlen' : xs.length = ys.length := by simpa using hlen
      rw [List.length_cons] at h
      have hk : k ≤ w := by
        rw [Nat.mul_succ] at h
        omega
      have hhead : x = y := by
        apply BitVec.eq_of_getLsbD_eq
        intro i hi
        have hbit := congrArg (fun z : BitVec w => z.getLsbD i) heq
        have hiw : i < w := by omega
        simpa [pack, hi, hiw] using hbit
      have htail : (pack xs : BitVec w) <<< k = pack ys <<< k := by
        rw [pack, pack, hhead] at heq
        exact (BitVec.xor_right_inj _).mp heq
      have hpack : (pack xs : BitVec w) = pack ys := by
        rw [← pack_shift xs h, htail, pack_shift ys (by rwa [hlen'] at h)]
      rw [hhead, ih hlen' (by rw [Nat.mul_succ] at h; omega) hpack]

/-- Feeding a string that fits the register is adding it all at once and then moving. -/
theorem foldl_feed (xs : List (BitVec k)) (s : BitVec w) (h : k * xs.length ≤ w) :
    xs.foldl (feed poly k) s = steps poly (k * xs.length) (s ^^^ pack xs) := by
  induction xs generalizing s with
  | nil => simp [pack, steps]
  | cons x xs ih =>
    rw [List.length_cons] at h
    have hlow : ∀ i < k, ((pack xs : BitVec w) <<< k).getLsbD i = false := by
      intro i hi
      simp [hi]
    have hrest := ih (feed poly k s x) (by rw [Nat.mul_succ] at h; omega)
    have hfirst : steps poly k (s ^^^ pack (x :: xs)) = feed poly k s x ^^^ pack xs := by
      rw [pack, ← BitVec.xor_assoc, steps_xor, steps_low_zero poly k _ hlow, pack_shift xs h]
      rfl
    rw [List.foldl_cons, hrest, List.length_cons, Nat.mul_succ, Nat.add_comm, steps_add, hfirst]

theorem foldl_feed_injective (h : poly.msb = true) (zs : List (BitVec k)) {a b : BitVec w}
    (hab : zs.foldl (feed poly k) a = zs.foldl (feed poly k) b) : a = b := by
  induction zs generalizing a b with
  | nil => exact hab
  | cons z zs ih => exact (BitVec.xor_left_inj _).mp (steps_injective poly h k (ih hab))

/-- Two strings that differ only within a part as long as the register leave it in different
states. -/
theorem foldl_feed_window (h : poly.msb = true) (s : BitVec w) (pre xs ys post : List (BitVec k))
    (hlen : xs.length = ys.length) (hfit : k * xs.length ≤ w)
    (heq : (pre ++ xs ++ post).foldl (feed poly k) s = (pre ++ ys ++ post).foldl (feed poly k) s) :
    xs = ys := by
  rw [List.foldl_append, List.foldl_append, List.foldl_append, List.foldl_append] at heq
  have hmid := foldl_feed_injective poly h post heq
  rw [foldl_feed poly xs _ hfit, foldl_feed poly ys _ (by rwa [← hlen]), ← hlen] at hmid
  have hpack := (BitVec.xor_right_inj _).mp (steps_injective poly h _ hmid)
  exact pack_injective hlen hfit hpack

end ValkeyRdb.ShiftRegister
