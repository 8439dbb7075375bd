import ValkeyRdb.Compact

/-!
# LZF decompression (lzf.rs)

A control byte below 32 starts a literal run; any other starts a back-reference, short
(length in its top three bits) or long (length in the next byte as well).
-/

namespace ValkeyRdb.Lzf

def lzfMaxRatio : Nat := 1024

/-- The byte-by-byte copy of an overlapping back-reference (lzf.rs:89-92): `n` more
bytes, the next one from `start + j`. -/
def copyLoop (start : Nat) : Nat → Nat → Bytes → Res Bytes
  | 0, _, output => .ok output
  | n + 1, j, output => do
    let byte ← index output (← add64 start j)
    copyLoop start n (j + 1) (output ++ [byte])

/-- The copy of a back-reference, bulk or byte by byte (lzf.rs:74-93). -/
def copyBackref (offset len : Nat) (output : Bytes) : Res Bytes := do
  let start ← sub64 output.length offset
  if offset ≥ len then
    let chunk ← slice output start (← add64 start len)
    pure (output ++ chunk)
  else copyLoop start len 0 output

/-- Length of a back-reference before the minimum of 2 is added, and the position
after its length byte (lzf.rs:46-56). -/
def backrefLength (compressed : Bytes) (ctrl i : Nat) : Res (Nat × Nat) :=
  let len := ctrl >>> 5
  if len = 7 then
    if i ≥ compressed.length then corrupt "LZF long match overrun"
    else do
      let more ← index compressed i
      pure (len + more.toNat, i + 1)
  else pure (len, i)

/-- One round of the loop from position `i` (lzf.rs:32-94). -/
def step (compressed : Bytes) (expectedLen i : Nat) (output : Bytes) : Res (Nat × Bytes) := do
  let ctrl := (← index compressed i).toNat
  let i := i + 1
  if ctrl < 32 then
    let len := ctrl + 1
    let stop ← add64 i len
    let newLen ← add64 output.length len
    if stop > compressed.length then corrupt "LZF literal overrun"
    else if newLen > expectedLen then corrupt "LZF output exceeds expected length"
    else
      let literal ← slice compressed i stop
      pure (stop, output ++ literal)
  else
    let (len, i) ← backrefLength compressed ctrl i
    let len := len + 2
    if i ≥ compressed.length then corrupt "LZF offset overrun"
    else
      let low ← index compressed i
      let offset := (((ctrl &&& 0x1F) <<< 8) ||| low.toNat) + 1
      let newLen ← add64 output.length len
      if offset > output.length then corrupt "LZF offset beyond output"
      else if newLen > expectedLen then corrupt "LZF output exceeds expected length"
      else
        let output ← copyBackref offset len output
        pure (i + 1, output)

def decompressLoop (compressed : Bytes) (expectedLen : Nat) : Nat → Nat → Bytes → Res Bytes
  | 0, _, _ => .error .diverge
  | fuel + 1, i, output =>
    if i < compressed.length then do
      let (i, output) ← step compressed expectedLen i output
      decompressLoop compressed expectedLen fuel i output
    else .ok output

/-- lzf.rs:19-106 -/
def decompress (compressed : Bytes) (expectedLen : Nat) : Res Bytes :=
  if compressed ≠ [] ∧ expectedLen / compressed.length > lzfMaxRatio then
    corrupt s!"LZF decompression ratio too high: {compressed.length} -> {expectedLen} (max {lzfMaxRatio}x)"
  else do
    let output ← decompressLoop compressed expectedLen (compressed.length + 1) 0 []
    if output.length ≠ expectedLen then
      corrupt s!"LZF decompressed size mismatch: got {output.length}, expected {expectedLen}"
    else pure output

/-! ### Every compressed string is decoded or rejected -/

theorem copyLoop_returns (start n j : Nat) (output : Bytes) (h : start + j < output.length)
    (h64 : output.length + n < 2 ^ 64) :
    Returns (copyLoop start n j output) (fun out => out.length = output.length + n) := by
  induction n generalizing j output with
  | zero => rfl
  | succ n ih =>
    rw [copyLoop, add64_eq (by omega), ok_bind, index_lt h, ok_bind]
    have hlen : (output ++ [output[start + j]]).length = output.length + 1 := by simp
    refine (ih (j + 1) _ (by omega) (by omega)).mono fun out ho => ?_
    omega

theorem copyBackref_returns {offset len : Nat} {output : Bytes} (h0 : 0 < offset)
    (h : offset ≤ output.length) (h64 : output.length + len < 2 ^ 64) :
    Returns (copyBackref offset len output) (fun out => out.length = output.length + len) := by
  rw [copyBackref, sub64_eq h, ok_bind]
  refine ExceptMeets.ite (fun hbulk => ?_) fun _ => ?_
  · rw [add64_eq (by omega), ok_bind, slice_eq ⟨by omega, by omega⟩, ok_bind]
    simp only [exceptMeets_pure, List.length_append, List.length_drop, List.length_take]
    omega
  · exact copyLoop_returns _ _ _ _ (by omega) h64

theorem backrefLength_returns {compressed : Bytes} {ctrl i : Nat} (hc : ctrl < 256)
    (hi : i ≤ compressed.length) : Returns (backrefLength compressed ctrl i)
      (fun r => r.1 ≤ 262 ∧ i ≤ r.2 ∧ r.2 ≤ compressed.length) := by
  have hshift : ctrl >>> 5 ≤ 7 := by
    rw [Nat.shiftRight_eq_div_pow]
    omega
  refine ExceptMeets.ite (fun h7 => ?_) fun _ => ⟨by dsimp only; omega, le_rfl, hi⟩
  refine ExceptMeets.ite (fun _ => returns_corrupt) fun hlt => ?_
  have hlen : i < compressed.length := by omega
  rw [index_lt hlen, ok_bind]
  have hb := compressed[i].toNat_lt
  exact ⟨by dsimp only; omega, by dsimp only; omega, by dsimp only; omega⟩

/-- A round moves the position, stays inside the input and never exceeds the
expected output. -/
theorem step_returns {compressed : Bytes} {expectedLen i : Nat} {output : Bytes}
    (hc : compressed.length < 2 ^ 63) (he : expectedLen < 2 ^ 63)
    (hi : i < compressed.length) (ho : output.length ≤ expectedLen) :
    Returns (step compressed expectedLen i output)
      (fun r => i < r.1 ∧ r.1 ≤ compressed.length ∧ r.2.length ≤ expectedLen) := by
  have hctrl := (compressed[i]).toNat_lt
  rw [step, index_lt hi, ok_bind]
  refine ExceptMeets.ite (fun hlit => ?_) fun _ => ?_
  · dsimp only
    rw [add64_eq (by omega), ok_bind, add64_eq (by omega), ok_bind]
    refine ExceptMeets.ite (fun _ => returns_corrupt) fun hstop => ?_
    refine ExceptMeets.ite (fun _ => returns_corrupt) fun hnew => ?_
    rw [slice_eq ⟨by omega, by omega⟩, ok_bind]
    refine ⟨by dsimp only; omega, by dsimp only; omega, ?_⟩
    simp only [List.length_append, List.length_drop, List.length_take]
    omega
  · refine (backrefLength_returns hctrl (by omega)).bind fun r hr => ?_
    obtain ⟨len, i'⟩ := r
    dsimp only at hr ⊢
    refine ExceptMeets.ite (fun _ => returns_corrupt) fun hi' => ?_
    rw [index_lt (by omega), ok_bind, add64_eq (by omega), ok_bind]
    refine ExceptMeets.ite (fun _ => returns_corrupt) fun hoff => ?_
    refine ExceptMeets.ite (fun _ => returns_corrupt) fun hnew => ?_
    refine (copyBackref_returns (by omega) (by omega) (by omega)).bind fun out hout => ?_
    exact ⟨by dsimp only; omega, by dsimp only; omega, by dsimp only; omega⟩

theorem decompressLoop_returns {compressed : Bytes} {expectedLen : Nat}
    (hc : compressed.length < 2 ^ 63) (he : expectedLen < 2 ^ 63) (fuel i : Nat) (output : Bytes)
    (hi : i ≤ compressed.length) (hf : compressed.length < fuel + i)
    (ho : output.length ≤ expectedLen) :
    Returns (decompressLoop compressed expectedLen fuel i output) (fun _ => True) := by
  induction fuel generalizing i output with
  | zero => omega
  | succ fuel ih =>
    refine ExceptMeets.ite (fun hlt => ?_) fun _ => trivial
    refine (step_returns hc he hlt ho).bind fun r hr => ?_
    obtain ⟨i', output'⟩ := r
    obtain ⟨h1, h2, h3⟩ := hr
    exact ih i' output' h2 (by dsimp only at h1; omega) h3

theorem decompress_returns {compressed : Bytes} {expectedLen : Nat}
    (hc : compressed.length < 2 ^ 63) (he : expectedLen < 2 ^ 63) :
    Returns (decompress compressed expectedLen) (fun out => out.length = expectedLen) := by
  refine ExceptMeets.ite (fun _ => returns_corrupt) fun _ => ?_
  refine (decompressLoop_returns hc he _ 0 [] (by omega) (by omega) (by simp)).bind
    fun out _ => ?_
  refine ExceptMeets.ite (fun _ => returns_corrupt) fun hlen => ?_
  exact not_not.mp hlen

end ValkeyRdb.Lzf
