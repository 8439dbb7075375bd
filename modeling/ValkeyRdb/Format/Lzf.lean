import ValkeyRdb.Lzf

/-!
# LZF as it is written

A compressed string is a sequence of literal runs and back-references; what it stands for
is what they expand to from left to right. The decompressor returns exactly that.
-/

namespace ValkeyRdb.Lzf

inductive Op where
  | literal (run : Bytes) (h : 0 < run.length ∧ run.length ≤ 32)
  | copy (offset len : Nat) (ho : 0 < offset ∧ offset ≤ 8192) (hl : 3 ≤ len ∧ len ≤ 264)

/-- The comment of `decompress`: a run stores its length minus one, a match its length
minus two in three bits, or 7 there and its length minus nine in a byte of its own. -/
def Op.bytes : Op → Bytes
  | .literal run _ => UInt8.ofNat (run.length - 1) :: run
  | .copy offset len _ _ =>
    if len ≤ 8 then
      [UInt8.ofNat ((len - 2) * 32 + (offset - 1) / 256), UInt8.ofNat (offset - 1)]
    else
      [UInt8.ofNat (7 * 32 + (offset - 1) / 256), UInt8.ofNat (len - 9), UInt8.ofNat (offset - 1)]

/-- `n` bytes, each the one `offset` places back. -/
def copyBack (offset : Nat) : Nat → Bytes → Bytes
  | 0, out => out
  | n + 1, out => copyBack offset n (out ++ [out.getD (out.length - offset) 0])

def Op.expand (out : Bytes) : Op → Bytes
  | .literal run _ => out ++ run
  | .copy offset len _ _ => copyBack offset len out

/-- A back-reference reaches into what is already there. -/
def Op.Reaches (out : Bytes) : Op → Prop
  | .literal _ _ => True
  | .copy offset _ _ _ => offset ≤ out.length

def AllReach : Bytes → List Op → Prop
  | _, [] => True
  | out, op :: ops => op.Reaches out ∧ AllReach (op.expand out) ops

structure Form where
  ops : List Op
  reach : AllReach [] ops

def Form.bytes (f : Form) : Bytes := f.ops.flatMap Op.bytes

def Form.value (f : Form) : Bytes := f.ops.foldl Op.expand []

/-! ### Lengths -/

theorem length_copyBack (offset n : Nat) (out : Bytes) :
    (copyBack offset n out).length = out.length + n := by
  induction n generalizing out with
  | zero => rfl
  | succ n ih =>
    rw [copyBack, ih, List.length_append, List.length_singleton]
    omega

/-- The number of bytes that an item expands to. -/
def Op.size : Op → Nat
  | .literal run _ => run.length
  | .copy _ len _ _ => len

theorem Op.length_expand (op : Op) (out : Bytes) :
    (op.expand out).length = out.length + op.size := by
  cases op with
  | literal run h => rw [Op.expand, Op.size, List.length_append]
  | copy offset len ho hl => rw [Op.expand, Op.size, length_copyBack]

theorem length_expandAll (ops : List Op) (out : Bytes) :
    (ops.foldl Op.expand out).length = out.length + (ops.map Op.size).sum := by
  induction ops generalizing out with
  | nil => rfl
  | cons op ops ih =>
    rw [List.foldl_cons, ih, op.length_expand, List.map_cons, List.sum_cons, Nat.add_assoc]

theorem Op.size_bounds (op : Op) :
    op.bytes.length ≤ 2 * op.size ∧ op.size ≤ 88 * op.bytes.length := by
  cases op with
  | literal run h =>
    rw [Op.bytes, Op.size, List.length_cons]
    omega
  | copy offset len ho hl =>
    rw [Op.bytes, Op.size]
    split
    · simp only [List.length_cons, List.length_nil]
      omega
    · simp only [List.length_cons, List.length_nil]
      omega

theorem sizes_bounds (ops : List Op) :
    (ops.flatMap Op.bytes).length ≤ 2 * (ops.map Op.size).sum ∧
      (ops.map Op.size).sum ≤ 88 * (ops.flatMap Op.bytes).length := by
  induction ops with
  | nil => simp
  | cons op ops ih =>
    have hop := op.size_bounds
    rw [List.flatMap_cons, List.length_append, List.map_cons, List.sum_cons]
    omega

theorem Form.length_value (f : Form) : f.value.length = (f.ops.map Op.size).sum := by
  rw [Form.value, length_expandAll, List.length_nil, Nat.zero_add]

theorem Form.length_bytes_le (f : Form) : f.bytes.length ≤ 2 * f.value.length := by
  rw [f.length_value]
  exact (sizes_bounds f.ops).1

theorem Form.length_value_le (f : Form) : f.value.length ≤ 88 * f.bytes.length := by
  rw [f.length_value]
  exact (sizes_bounds f.ops).2

theorem Form.within_ratio (f : Form) :
    ¬(f.bytes ≠ [] ∧ f.value.length / f.bytes.length > lzfMaxRatio) := by
  rintro ⟨-, hgt⟩
  have hle := f.length_value_le
  have hdiv : f.value.length / f.bytes.length ≤ 88 :=
    Nat.div_le_of_le_mul (by rw [Nat.mul_comm]; exact hle)
  rw [lzfMaxRatio] at hgt
  omega

/-! ### Back-references -/

theorem copyLoop_eq (start offset n j : Nat) (out : Bytes) (hlen : out.length = start + offset + j)
    (ho : 0 < offset) (h64 : out.length + n < 2 ^ 64) :
    copyLoop start n j out = .ok (copyBack offset n out) := by
  induction n generalizing j out with
  | zero => rfl
  | succ n ih =>
    have hlt : start + j < out.length := by omega
    have hback : out.length - offset = start + j := by omega
    have hget : out.getD (start + j) 0 = out[start + j] := by simp [hlt]
    have hnext := ih (j + 1) (out ++ [out[start + j]]) (by simp; omega) (by simp; omega)
    rw [copyLoop, add64_eq (by omega), ok_bind, index_lt hlt, ok_bind, hnext, copyBack, hback, hget]

theorem copyBack_slice (base : Bytes) (start offset n j : Nat) (hb : base.length = start + offset)
    (hn : j + n ≤ offset) :
    copyBack offset n (base ++ (base.drop start).take j) =
      base ++ (base.drop start).take (j + n) := by
  induction n generalizing j with
  | zero => rfl
  | succ n ih =>
    have hlt : start + j < base.length := by omega
    have hdrop : j < (base.drop start).length := by
      rw [List.length_drop]
      omega
    have hlen : (base ++ (base.drop start).take j).length - offset = start + j := by
      rw [List.length_append, List.length_take, List.length_drop]
      omega
    have hget : (base ++ (base.drop start).take j).getD (start + j) 0 = (base.drop start)[j] := by
      simp [List.getElem?_append_left hlt, hlt]
    have htake : (base.drop start).take j ++ [(base.drop start)[j]] =
        (base.drop start).take (j + 1) := List.take_append_getElem hdrop
    rw [copyBack, hlen, hget, List.append_assoc, htake, ih (j + 1) (by omega)]
    congr 2
    omega

theorem copyBackref_eq {offset : Nat} (len : Nat) {out : Bytes} (h0 : 0 < offset)
    (ho : offset ≤ out.length) (h64 : out.length + len < 2 ^ 64) :
    copyBackref offset len out = .ok (copyBack offset len out) := by
  rw [copyBackref, sub64_eq ho, ok_bind]
  by_cases hbulk : offset ≥ len
  · have hslice := copyBack_slice out (out.length - offset) offset len 0 (by omega) (by omega)
    rw [List.take_zero, List.append_nil, Nat.zero_add] at hslice
    have hdt : (out.take (out.length - offset + len)).drop (out.length - offset) =
        (out.drop (out.length - offset)).take len := by
      rw [List.drop_take]
      congr 1
      omega
    rw [if_pos hbulk, add64_eq (by omega), ok_bind, slice_eq ⟨by omega, by omega⟩, ok_bind, hdt,
      hslice]
    rfl
  · rw [if_neg hbulk]
    exact copyLoop_eq _ offset len 0 out (by omega) h0 h64

/-! ### The decompressor -/

theorem offset_split {offset : Nat} (ho : 0 < offset ∧ offset ≤ 8192) :
    ((((offset - 1) / 256) <<< 8) ||| (UInt8.ofNat (offset - 1)).toNat) + 1 = offset := by
  rw [shift_or_byte, UInt8.toNat_ofNat']
  omega

/-- A control byte holds three bits of length and the five high bits of the offset. -/
theorem ctrl_split (len : Nat) {hi : Nat} (hl : len ≤ 7) (hh : hi < 32) :
    (UInt8.ofNat (len * 32 + hi)).toNat = len * 32 + hi ∧ (len * 32 + hi) >>> 5 = len ∧
      (len * 32 + hi) &&& 0x1F = hi := by
  refine ⟨toNat_ofNat_of_lt (by omega), ?_, ?_⟩
  · rw [Nat.shiftRight_eq_div_pow]
    omega
  · rw [Nat.and_two_pow_sub_one_eq_mod _ 5]
    omega

theorem step_copy {compressed out : Bytes} {expectedLen i j offset len : Nat} {ctrl low : UInt8}
    (hi : index compressed i = .ok ctrl) (hc : 32 ≤ ctrl.toNat)
    (hl : backrefLength compressed ctrl.toNat (i + 1) = .ok (len - 2, j))
    (hj : index compressed j = .ok low) (hjl : j < compressed.length)
    (hoff : (((ctrl.toNat &&& 0x1F) <<< 8) ||| low.toNat) + 1 = offset)
    (ho : 0 < offset ∧ offset ≤ 8192) (h3 : 3 ≤ len) (hr : offset ≤ out.length)
    (hfit : (copyBack offset len out).length ≤ expectedLen) (he : expectedLen < 2 ^ 64) :
    step compressed expectedLen i out = .ok (j + 1, copyBack offset len out) := by
  rw [length_copyBack] at hfit
  have hcopy := copyBackref_eq len ho.1 hr (by omega)
  have hlen : len - 2 + 2 = len := by omega
  rw [step, hi, ok_bind]
  dsimp only
  rw [if_neg (by omega), hl, ok_bind]
  dsimp only
  rw [if_neg (by omega), hj, ok_bind, hoff, hlen, add64_eq (by omega), ok_bind, if_neg (by omega),
    if_neg (by omega), hcopy, ok_bind]
  rfl

theorem step_op (op : Op) (pre post out : Bytes) (expectedLen : Nat)
    (h64 : (pre ++ (op.bytes ++ post)).length < 2 ^ 63) (he : expectedLen < 2 ^ 64)
    (hr : op.Reaches out) (hfit : (op.expand out).length ≤ expectedLen) :
    step (pre ++ (op.bytes ++ post)) expectedLen pre.length out =
      .ok (pre.length + op.bytes.length, op.expand out) := by
  cases op with
  | literal run h =>
    simp only [Op.expand, List.length_append] at hfit
    simp only [Op.bytes, List.length_append, List.length_cons] at h64
    have hctrl : (UInt8.ofNat (run.length - 1)).toNat = run.length - 1 :=
      toNat_ofNat_of_lt (by omega)
    have hindex : index (pre ++ (UInt8.ofNat (run.length - 1) :: run ++ post)) pre.length =
        .ok (UInt8.ofNat (run.length - 1)) := index_append pre _ (k := 0) rfl
    have hslice := slice_append (pre ++ [UInt8.ofNat (run.length - 1)]) run post
      (n := pre.length + 1 + (run.length - 1 + 1)) (by simp; omega)
    simp only [List.append_assoc, List.singleton_append, List.length_append,
      List.length_singleton] at hslice
    rw [Op.bytes, step, hindex, ok_bind, hctrl]
    simp only [List.cons_append]
    rw [if_pos (by omega), add64_eq (by omega), ok_bind, add64_eq (by omega), ok_bind,
      if_neg (by simp only [List.length_append, List.length_cons]; omega), if_neg (by omega), hslice,
      ok_bind]
    simp only [Op.expand, List.length_cons, pure, Except.pure]
    congr 2
    omega
  | copy offset len ho hl =>
    have hlow := offset_split ho
    have hhi : (offset - 1) / 256 < 32 := by omega
    by_cases hshort : len ≤ 8
    · have hbytes : (Op.copy offset len ho hl).bytes =
          [UInt8.ofNat ((len - 2) * 32 + (offset - 1) / 256), UInt8.ofNat (offset - 1)] :=
        if_pos hshort
      obtain ⟨hctrl, htop, hand⟩ := ctrl_split (len - 2) (by omega) hhi
      generalize UInt8.ofNat ((len - 2) * 32 + (offset - 1) / 256) = ctrl at hbytes hctrl
      have hlen : backrefLength (pre ++ ([ctrl, UInt8.ofNat (offset - 1)] ++ post)) ctrl.toNat
          (pre.length + 1) = .ok (len - 2, pre.length + 1) := by
        rw [hctrl, backrefLength, htop]
        exact if_neg (by omega)
      rw [hbytes]
      exact step_copy (index_append pre _ (k := 0) rfl) (by omega) hlen
        (index_append pre _ (k := 1) rfl) (by simp) (by rw [hctrl, hand, hlow]) ho hl.1 hr hfit he
    · have hbytes : (Op.copy offset len ho hl).bytes =
          [UInt8.ofNat (7 * 32 + (offset - 1) / 256), UInt8.ofNat (len - 9),
            UInt8.ofNat (offset - 1)] := if_neg hshort
      obtain ⟨hctrl, htop, hand⟩ := ctrl_split 7 (by omega) hhi
      generalize UInt8.ofNat (7 * 32 + (offset - 1) / 256) = ctrl at hbytes hctrl
      have hmore : (UInt8.ofNat (len - 9)).toNat = len - 9 := toNat_ofNat_of_lt (by omega)
      have hnext : index (pre ++ ([ctrl, UInt8.ofNat (len - 9), UInt8.ofNat (offset - 1)] ++ post))
          (pre.length + 1) = .ok (UInt8.ofNat (len - 9)) := index_append pre _ (k := 1) rfl
      have hlen : backrefLength
          (pre ++ ([ctrl, UInt8.ofNat (len - 9), UInt8.ofNat (offset - 1)] ++ post)) ctrl.toNat
          (pre.length + 1) = .ok (len - 2, pre.length + 2) := by
        have hsum : 7 + (len - 9) = len - 2 := by omega
        rw [hctrl, backrefLength, htop, if_pos rfl, if_neg (by simp), hnext, ok_bind, hmore, hsum]
        rfl
      rw [hbytes]
      exact step_copy (index_append pre _ (k := 0) rfl) (by omega) hlen
        (index_append pre _ (k := 2) rfl) (by simp) (by rw [hctrl, hand, hlow]) ho hl.1 hr hfit he

theorem Op.length_bytes_pos (op : Op) : 0 < op.bytes.length := by
  cases op with
  | literal run h => simp [Op.bytes]
  | copy offset len ho hl =>
    rw [Op.bytes]
    split <;> simp

theorem length_le_bytes (ops : List Op) : ops.length ≤ (ops.flatMap Op.bytes).length := by
  induction ops with
  | nil => exact le_rfl
  | cons op ops ih =>
    have hpos := op.length_bytes_pos
    simp only [List.flatMap_cons, List.length_cons, List.length_append]
    omega

theorem decompressLoop_ops (ops : List Op) (pre out : Bytes) (expectedLen fuel : Nat)
    (h64 : (pre ++ ops.flatMap Op.bytes).length < 2 ^ 63) (he : expectedLen < 2 ^ 64)
    (hr : AllReach out ops) (hfit : (ops.foldl Op.expand out).length ≤ expectedLen)
    (hfuel : ops.length < fuel) :
    decompressLoop (pre ++ ops.flatMap Op.bytes) expectedLen fuel pre.length out =
      .ok (ops.foldl Op.expand out) := by
  induction ops generalizing pre out fuel with
  | nil =>
    obtain ⟨fuel, rfl⟩ : ∃ k, fuel = k + 1 := ⟨fuel - 1, by simp at hfuel; omega⟩
    rw [decompressLoop, if_neg (by simp)]
    rfl
  | cons op ops ih =>
    obtain ⟨fuel, rfl⟩ : ∃ k, fuel = k + 1 := ⟨fuel - 1, by simp at hfuel; omega⟩
    rw [List.flatMap_cons] at h64 ⊢
    have hop : (op.expand out).length ≤ expectedLen := by
      rw [List.foldl_cons, length_expandAll] at hfit
      omega
    have hstep := step_op op pre (ops.flatMap Op.bytes) out expectedLen h64 he hr.1 hop
    have hpos := op.length_bytes_pos
    have hlt : pre.length < (pre ++ (op.bytes ++ ops.flatMap Op.bytes)).length := by
      simp only [List.length_append]
      omega
    have hrest := ih (pre ++ op.bytes) (op.expand out) fuel
      (by rw [List.append_assoc]; exact h64) hr.2 hfit (by simp at hfuel; omega)
    rw [List.append_assoc, List.length_append] at hrest
    rw [decompressLoop, if_pos hlt, hstep, ok_bind]
    exact hrest

theorem decompress_form (f : Form) (hb : f.bytes.length < 2 ^ 63)
    (hv : f.value.length < 2 ^ 64) : decompress f.bytes f.value.length = .ok f.value := by
  have hops : f.ops.length ≤ f.bytes.length := length_le_bytes f.ops
  have hloop := decompressLoop_ops f.ops [] [] f.value.length (f.bytes.length + 1) hb hv f.reach
    le_rfl (by omega)
  rw [List.nil_append, List.length_nil] at hloop
  change decompressLoop f.bytes _ _ 0 [] = .ok f.value at hloop
  rw [decompress, if_neg f.within_ratio, hloop, ok_bind, if_neg (by simp)]
  rfl

end ValkeyRdb.Lzf
