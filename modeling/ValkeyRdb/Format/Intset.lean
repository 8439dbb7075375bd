import ValkeyRdb.Format.Ziplist

/-!
# Which blobs are intsets (intset.rs:27-101)

The decoder takes exactly the blobs whose length is what their header says, and these are
the ones that the integers they store are written to.
-/

namespace ValkeyRdb.Intset

/-- The header, with the width of the elements and their number. -/
def header (w : Width) (n : Nat) : Bytes := leBytes 4 w.size ++ leBytes 4 n

/-- The `n` little-endian signed integers in `rest`. -/
def storedInts (w : Width) (n : Nat) (rest : Bytes) : List Int :=
  (List.range n).map fun i =>
    signed (8 * w.size) (leVal ((rest.drop (i * w.size)).take w.size))

theorem storedInts_succ (w : Width) (n : Nat) (rest : Bytes) :
    storedInts w (n + 1) rest =
      signed (8 * w.size) (leVal (rest.take w.size)) :: storedInts w n (rest.drop w.size) := by
  unfold storedInts
  rw [List.range_succ_eq_map, List.map_cons, List.map_map, Nat.zero_mul, List.drop_zero]
  refine congrArg _ (List.map_congr_left fun i _ => ?_)
  have hpos : w.size + i * w.size = (i + 1) * w.size := by rw [Nat.succ_mul, Nat.add_comm]
  rw [Function.comp_apply, List.drop_drop, hpos]

theorem length_storedInts (w : Width) (n : Nat) (rest : Bytes) :
    (storedInts w n rest).length = n := by
  rw [storedInts, List.length_map, List.length_range]

theorem elementBytes_signed (w : Width) {chunk : Bytes} (h : chunk.length = w.size) :
    Form.elementBytes w (signed (8 * w.size) (leVal chunk)) = chunk := by
  have hlt : leVal chunk < 2 ^ (8 * w.size) := by
    have hval := leVal_lt chunk
    have hpow : (256 : Nat) ^ w.size = 2 ^ (8 * w.size) := by rw [Nat.pow_mul]
    rwa [h, hpow] at hval
  rw [Form.elementBytes, unsigned_signed hlt, ← h, leBytes_leVal]

theorem storedInts_bytes (w : Width) (n : Nat) {rest : Bytes} (h : rest.length = n * w.size) :
    (storedInts w n rest).flatMap (Form.elementBytes w) = rest := by
  induction n generalizing rest with
  | zero =>
    rw [Nat.zero_mul] at h
    rw [List.eq_nil_of_length_eq_zero h]
    rfl
  | succ n ih =>
    rw [Nat.succ_mul] at h
    have hchunk : (rest.take w.size).length = w.size := by
      rw [List.length_take]
      omega
    have hrest : (rest.drop w.size).length = n * w.size := by
      rw [List.length_drop]
      omega
    rw [storedInts_succ, List.flatMap_cons, elementBytes_signed w hchunk, ih hrest,
      List.take_append_drop]

/-- The intset that a blob of the right length is. -/
def formOf (w : Width) (n : Nat) (rest : Bytes) : Form where
  width := w
  elements := storedInts w n rest
  fits := by
    intro i hi
    obtain ⟨k, -, rfl⟩ := List.mem_map.mp hi
    have hw : 0 < 8 * w.size := by cases w <;> decide
    exact signed_fits hw _

theorem formOf_bytes (w : Width) (n : Nat) {rest : Bytes} (h : rest.length = n * w.size) :
    (formOf w n rest).bytes = header w n ++ rest := by
  unfold Form.bytes header formOf
  rw [length_storedInts, storedInts_bytes w n h]

theorem decode_header (w : Width) {n : Nat} (hn : n ≤ maxIntsetElements) {rest : Bytes}
    (h : rest.length = n * w.size) :
    decode (header w n ++ rest) = .ok ((storedInts w n rest).map intText) := by
  have hform := decode_form (formOf w n rest) ((length_storedInts w n rest).trans_le hn)
  rw [formOf_bytes w n h] at hform
  exact hform

theorem header_of_decode {data : Bytes} {members : List Bytes} (h : decode data = .ok members) :
    ∃ (w : Width) (n : Nat) (rest : Bytes), n ≤ maxIntsetElements ∧ rest.length = n * w.size ∧
      data = header w n ++ rest := by
  unfold decode at h
  split at h
  · cases h
  rename_i hlen
  rw [intsetHdrSize] at hlen
  rw [slice_eq ⟨by omega, by omega⟩, ok_bind, slice_eq ⟨by omega, by omega⟩, ok_bind] at h
  dsimp only at h
  split at h
  · cases h
  rename_i hcap
  split at h
  · cases h
  rename_i hwidth
  split at h
  · cases h
  split at h
  · cases h
  rename_i hsize
  obtain ⟨w, hw⟩ : ∃ w : Width, w.size = leVal ((data.take 4).drop 0) := by
    rcases Classical.not_not.mp hwidth with hw | hw | hw
    · exact ⟨.two, hw.symm⟩
    · exact ⟨.four, hw.symm⟩
    · exact ⟨.eight, hw.symm⟩
  refine ⟨w, leVal ((data.take 8).drop 4), data.drop 8, Nat.not_lt.mp hcap, ?_, ?_⟩
  · rw [List.length_drop, hw]
    rw [intsetHdrSize] at hsize
    omega
  · have h4 : (data.take 4).length = 4 := by
      rw [List.length_take]
      omega
    have h8 : ((data.take 8).drop 4).length = 4 := by
      rw [List.length_drop, List.length_take]
      omega
    have hfirst := leBytes_leVal (data.take 4)
    have hsecond := leBytes_leVal ((data.take 8).drop 4)
    rw [h4] at hfirst
    rw [h8] at hsecond
    rw [header, hw, List.drop_zero, hfirst, hsecond]
    have hfour : data.take 4 = (data.take 8).take 4 := by
      rw [List.take_take]
      rfl
    rw [hfour, List.take_append_drop, List.take_append_drop]

end ValkeyRdb.Intset

namespace ValkeyRdb

open Intset in
/-- A blob is decoded exactly when it is a header and as many bytes as it says; its members
are then the decimal texts of its integers, which differ for different integers. Any list
of integers of one width is decoded from what it is written to. -/
theorem intset_decode_inverts :
    (∀ data, (∃ members, decode data = .ok members) ↔
      ∃ (w : Width) (n : Nat) (rest : Bytes), n ≤ maxIntsetElements ∧ rest.length = n * w.size ∧
        data = header w n ++ rest) ∧
    (∀ (w : Width) (n : Nat) (rest : Bytes), n ≤ maxIntsetElements → rest.length = n * w.size →
      decode (header w n ++ rest) = .ok ((List.range n).map fun i =>
        intText (signed (8 * w.size) (leVal ((rest.drop (i * w.size)).take w.size))))) ∧
    Function.Injective intText ∧
    (∀ (w : Width) (elements : List Int), elements.length ≤ maxIntsetElements →
      (∀ i ∈ elements, FitsSigned (8 * w.size) i) →
      decode (header w elements.length ++
        elements.flatMap fun i => leBytes w.size (unsigned (8 * w.size) i)) =
        .ok (elements.map intText)) := by
  refine ⟨fun data => ⟨fun ⟨members, h⟩ => header_of_decode h, ?_⟩, fun w n rest hn h => ?_,
    intText_injective, fun w elements hn hfits => decode_form ⟨w, elements, hfits⟩ hn⟩
  · rintro ⟨w, n, rest, hn, h, rfl⟩
    exact ⟨_, decode_header w hn h⟩
  · rw [decode_header w hn h, storedInts, List.map_map]
    rfl

open Intset in
/-- The two least integers of two bytes. -/
theorem intset_decode_inverts_min :
    decode (header .two 2 ++ [0, 128, 1, 128]) =
      .ok [[45, 51, 50, 55, 54, 56], [45, 51, 50, 55, 54, 55]] :=
  intset_decode_inverts.2.1 .two 2 [0, 128, 1, 128] (by decide) rfl

end ValkeyRdb
