import ValkeyRdb.Lib.LossyText

/-!
# Well-formed text

A byte string is well formed when it is a sequence of well-formed scalar values; then the
scan finds them at any fuel, and lossy conversion keeps it.
-/

namespace ValkeyRdb

/-- A sequence of well-formed scalar values. -/
inductive Utf8 : Bytes → Prop where
  | nil : Utf8 []
  | cons {lead : UInt8} {rest : Bytes} {n : Nat} (head : utf8Head lead rest = (true, n + 1))
      (fits : n ≤ rest.length) (tail : Utf8 (rest.drop n)) : Utf8 (lead :: rest)

theorem getD_append_of_high {p : UInt8 → Bool} (hzero : p 0 = false) {rest : Bytes} {i : Nat}
    (h : p (rest.getD i 0) = true) (later : Bytes) :
    i < rest.length ∧ p ((rest ++ later).getD i 0) = true := by
  have hlt : i < rest.length := by
    by_contra hge
    rw [List.getD_eq_default _ _ (by omega), hzero] at h
    cases h
  exact ⟨hlt, by rw [List.getD_append _ _ _ _ hlt, h]⟩

theorem secondOfThree_zero (lead : UInt8) : secondOfThree lead 0 = false := by
  unfold secondOfThree
  split
  · decide
  · split <;> decide

theorem secondOfFour_zero (lead : UInt8) : secondOfFour lead 0 = false := by
  unfold secondOfFour
  split
  · decide
  · split <;> decide

/-- A well-formed scalar value ends within the text, and what follows does not matter. -/
theorem utf8Head_append {lead : UInt8} {rest : Bytes} (h : (utf8Head lead rest).1 = true)
    (later : Bytes) : ∃ n, utf8Head lead rest = (true, n + 1) ∧ n ≤ rest.length ∧
      utf8Head lead (rest ++ later) = (true, n + 1) := by
  have hcont : isContinuation 0 = false := by decide
  unfold utf8Head at h ⊢
  dsimp only at h ⊢
  split_ifs at h with h1 h2 h3 h4 h5 h6 h7 h8 h9 h10
  · exact ⟨0, by rw [if_pos h1], Nat.zero_le _, by rw [if_pos h1]⟩
  · obtain ⟨hlt, h3'⟩ := getD_append_of_high hcont h3 later
    refine ⟨1, ?_, hlt, ?_⟩
    · rw [if_neg h1, if_pos h2, if_pos h3]
    · rw [if_neg h1, if_pos h2, if_pos h3']
  · obtain ⟨-, h5'⟩ := getD_append_of_high (secondOfThree_zero lead) (by simpa using h5) later
    obtain ⟨hlt, h6'⟩ := getD_append_of_high hcont (by simpa using h6) later
    refine ⟨2, ?_, hlt, ?_⟩
    · rw [if_neg h1, if_neg h2, if_pos h4, if_neg h5, if_neg h6]
    · simp only [if_neg h1, if_neg h2, if_pos h4, h5', h6', Bool.not_true, Bool.false_eq_true, if_false]
  · obtain ⟨-, h8'⟩ := getD_append_of_high (secondOfFour_zero lead) (by simpa using h8) later
    obtain ⟨-, h9'⟩ := getD_append_of_high hcont (by simpa using h9) later
    obtain ⟨hlt, h10'⟩ := getD_append_of_high hcont (by simpa using h10) later
    refine ⟨3, ?_, hlt, ?_⟩
    · rw [if_neg h1, if_neg h2, if_neg h4, if_pos h7, if_neg h8, if_neg h9, if_neg h10]
    · simp only [if_neg h1, if_neg h2, if_neg h4, if_pos h7, h8', h9', h10', Bool.not_true,
        Bool.false_eq_true, if_false]

theorem Utf8.of_ascii {bs : Bytes} (h : IsAscii bs) : Utf8 bs := by
  induction bs with
  | nil => exact .nil
  | cons b bs ih =>
    unfold IsAscii at h ih
    rw [List.forall_mem_cons] at h
    exact .cons (utf8Head_ascii bs h.1) (Nat.zero_le _) (ih h.2)

theorem Utf8.append {a b : Bytes} (ha : Utf8 a) (hb : Utf8 b) : Utf8 (a ++ b) := by
  induction ha with
  | nil => exact hb
  | @cons lead rest n head fits tail ih =>
    obtain ⟨n', hn', -, hlater⟩ := utf8Head_append (by rw [head]) b
    rw [head] at hn'
    cases hn'
    rw [List.cons_append]
    refine .cons hlater (by rw [List.length_append]; omega) ?_
    rw [List.drop_append_of_le_length fits]
    exact ih

theorem utf8Scan_cons {lead : UInt8} {rest : Bytes} {ok : Bool} {n : Nat}
    (h : utf8Head lead rest = (ok, n + 1)) (fuel : Nat) :
    utf8Scan (fuel + 1) (lead :: rest) = (ok, lead :: rest.take n) :: utf8Scan fuel (rest.drop n) := by
  rw [utf8Scan, h]
  simp only [List.take_succ_cons, List.drop_succ_cons]

/-- The scan of well-formed text finds all of it. -/
theorem Utf8.scan {bs : Bytes} (h : Utf8 bs) {fuel : Nat} (hfuel : bs.length ≤ fuel) :
    (∀ x ∈ utf8Scan fuel bs, x.1 = true) ∧ (utf8Scan fuel bs).flatMap Prod.snd = bs := by
  induction h generalizing fuel with
  | nil => cases fuel <;> simp [utf8Scan]
  | @cons lead rest n head fits tail ih =>
    rw [List.length_cons] at hfuel
    obtain ⟨fuel, rfl⟩ : ∃ m, fuel = m + 1 := ⟨fuel - 1, by omega⟩
    have hlen : (rest.drop n).length ≤ fuel := by
      rw [List.length_drop]
      omega
    obtain ⟨hall, hparts⟩ := ih hlen
    rw [utf8Scan_cons head, List.forall_mem_cons, List.flatMap_cons, hparts, List.cons_append,
      List.take_append_drop]
    exact ⟨⟨rfl, hall⟩, rfl⟩

theorem utf8_of_scan {fuel : Nat} {bs : Bytes} (hfuel : bs.length ≤ fuel)
    (h : ∀ x ∈ utf8Scan fuel bs, x.1 = true) : Utf8 bs := by
  induction fuel generalizing bs with
  | zero =>
    rw [List.eq_nil_of_length_eq_zero (Nat.le_zero.mp hfuel)]
    exact .nil
  | succ fuel ih =>
    cases bs with
    | nil => exact .nil
    | cons lead rest =>
      have hhead : (utf8Head lead rest).1 = true := by
        unfold utf8Scan at h
        exact h _ List.mem_cons_self
      obtain ⟨n, hn, hfits, -⟩ := utf8Head_append hhead []
      rw [utf8Scan_cons hn, List.forall_mem_cons] at h
      have htail := h.2
      rw [List.length_cons] at hfuel
      refine .cons hn hfits (ih ?_ htail)
      rw [List.length_drop]
      omega

theorem validUtf8_iff {bs : Bytes} : validUtf8 bs = true ↔ Utf8 bs := by
  unfold validUtf8
  rw [List.all_eq_true]
  exact ⟨utf8_of_scan le_rfl, fun h => (h.scan le_rfl).1⟩

theorem Utf8.lossy {bs : Bytes} (h : Utf8 bs) : fromUtf8Lossy bs = bs := by
  obtain ⟨hall, hparts⟩ := h.scan le_rfl
  unfold fromUtf8Lossy
  calc _ = (utf8Scan bs.length bs).flatMap Prod.snd := by
        rw [List.flatMap_def, List.flatMap_def]
        congr 1
        apply List.map_congr_left
        intro x hx
        simp [hall x hx]
    _ = bs := hparts

end ValkeyRdb
