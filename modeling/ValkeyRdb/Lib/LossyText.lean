import Mathlib.Data.List.GetD
import Mathlib.Data.List.Infix
import ValkeyRdb.Lib.Text

/-!
# ASCII parts of lossy text

Lossy conversion keeps the ASCII bytes of a string and turns every other part into bytes
that are not ASCII, so that a test for an ASCII prefix, suffix or string says the same of
the result as of the string.
-/

namespace ValkeyRdb

def IsAscii (bs : Bytes) : Prop := ∀ b ∈ bs, b < 0x80

/-- A non-empty part without ASCII bytes. -/
def IsHigh (bs : Bytes) : Prop := bs ≠ [] ∧ ∀ b ∈ bs, ¬ b < 0x80

/-- The second string is the first one with parts that are not ASCII replaced. -/
inductive Lossy : Bytes → Bytes → Prop where
  | nil : Lossy [] []
  | ascii (b : UInt8) {xs ys : Bytes} (h : Lossy xs ys) : Lossy (b :: xs) (b :: ys)
  | high {p q xs ys : Bytes} (hp : IsHigh p) (hq : IsHigh q) (h : Lossy xs ys) :
      Lossy (p ++ xs) (q ++ ys)

namespace Lossy

theorem append {xs ys xs' ys' : Bytes} (h : Lossy xs ys) (h' : Lossy xs' ys') :
    Lossy (xs ++ xs') (ys ++ ys') := by
  induction h with
  | nil => exact h'
  | ascii b _ ih => exact .ascii b ih
  | high hp hq _ ih =>
    rw [List.append_assoc, List.append_assoc]
    exact .high hp hq ih

theorem of_high {p q : Bytes} (hp : IsHigh p) (hq : IsHigh q) : Lossy p q := by
  simpa using Lossy.high hp hq .nil

theorem reverse {xs ys : Bytes} (h : Lossy xs ys) : Lossy xs.reverse ys.reverse := by
  induction h with
  | nil => exact .nil
  | ascii b _ ih =>
    rw [List.reverse_cons, List.reverse_cons]
    exact ih.append (.ascii b .nil)
  | high hp hq _ ih =>
    have hswap : ∀ {part : Bytes}, IsHigh part → IsHigh part.reverse := fun hpart =>
      ⟨by simpa using hpart.1, fun b hb => hpart.2 b (List.mem_reverse.mp hb)⟩
    rw [List.reverse_append, List.reverse_append]
    exact ih.append (of_high (hswap hp) (hswap hq))

/-- A string that starts with an ASCII byte does not start with a part without one. -/
theorem not_prefix_high {part p rest : Bytes} (hpart : IsHigh part) {b : UInt8} (hb : b < 0x80) :
    ¬ b :: p <+: part ++ rest := by
  intro h
  obtain ⟨c, cs, rfl⟩ := List.exists_cons_of_ne_nil hpart.1
  rw [List.cons_append, List.cons_prefix_cons] at h
  exact hpart.2 c List.mem_cons_self (h.1 ▸ hb)

theorem prefix_iff {xs ys : Bytes} (h : Lossy xs ys) {p : Bytes} (hp : IsAscii p) :
    p <+: xs ↔ p <+: ys := by
  induction h generalizing p with
  | nil => exact Iff.rfl
  | ascii b _ ih =>
    cases p with
    | nil => simp
    | cons c p =>
      rw [List.cons_prefix_cons, List.cons_prefix_cons,
        ih fun x hx => hp x (List.mem_cons_of_mem c hx)]
  | high hq hq' _ ih =>
    cases p with
    | nil => simp
    | cons c p =>
      have hc := hp c List.mem_cons_self
      exact iff_of_false (not_prefix_high hq hc) (not_prefix_high hq' hc)

theorem suffix_iff {xs ys : Bytes} (h : Lossy xs ys) {p : Bytes} (hp : IsAscii p) :
    p <:+ xs ↔ p <:+ ys := by
  have hrev : IsAscii p.reverse := fun b hb => hp b (List.mem_reverse.mp hb)
  rw [← List.reverse_prefix, ← List.reverse_prefix]
  exact h.reverse.prefix_iff hrev

theorem eq_iff {xs ys : Bytes} (h : Lossy xs ys) {p : Bytes} (hp : IsAscii p) :
    xs = p ↔ ys = p := by
  induction h generalizing p with
  | nil => exact Iff.rfl
  | ascii b _ ih =>
    cases p with
    | nil => simp
    | cons c p =>
      rw [List.cons.injEq, List.cons.injEq, ih fun x hx => hp x (List.mem_cons_of_mem c hx)]
  | high hq hq' _ _ =>
    have hne : ∀ {part rest : Bytes}, IsHigh part → part ++ rest ≠ p := by
      intro part rest hpart heq
      obtain ⟨c, cs, rfl⟩ := List.exists_cons_of_ne_nil hpart.1
      have hmem : c ∈ p := by simp [← heq]
      exact hpart.2 c List.mem_cons_self (hp c hmem)
    exact iff_of_false (hne hq) (hne hq')

end Lossy

/-! ### Lossy conversion -/

theorem high_of_le {low b : UInt8} (hlow : 0x80 ≤ low) (h : low ≤ b) : ¬ b < 0x80 :=
  UInt8.not_lt.mpr (UInt8.le_trans hlow h)

theorem continuation_high {b : UInt8} (h : isContinuation b = true) : ¬ b < 0x80 := by
  simp only [isContinuation, Bool.and_eq_true, decide_eq_true_eq] at h
  exact high_of_le (by decide) h.1

theorem secondOfThree_high {lead b : UInt8} (h : secondOfThree lead b = true) : ¬ b < 0x80 := by
  unfold secondOfThree at h
  split at h
  · simp only [Bool.and_eq_true, decide_eq_true_eq] at h
    exact high_of_le (by decide) h.1
  split at h
  · simp only [Bool.and_eq_true, decide_eq_true_eq] at h
    exact high_of_le (by decide) h.1
  · exact continuation_high h

theorem secondOfFour_high {lead b : UInt8} (h : secondOfFour lead b = true) : ¬ b < 0x80 := by
  unfold secondOfFour at h
  split at h
  · simp only [Bool.and_eq_true, decide_eq_true_eq] at h
    exact high_of_le (by decide) h.1
  split at h
  · simp only [Bool.and_eq_true, decide_eq_true_eq] at h
    exact high_of_le (by decide) h.1
  · exact continuation_high h

/-- The first `k` bytes are there or read as zero, and none of them is ASCII. -/
def HighUpTo (rest : Bytes) (k : Nat) : Prop := ∀ i < k, ¬ rest.getD i 0 < 0x80

theorem HighUpTo.zero (rest : Bytes) : HighUpTo rest 0 := fun i hi => absurd hi (Nat.not_lt_zero i)

theorem HighUpTo.succ {rest : Bytes} {k : Nat} (h : HighUpTo rest k) (hk : ¬ rest.getD k 0 < 0x80) :
    HighUpTo rest (k + 1) := by
  intro i hi
  rcases Nat.lt_succ_iff_lt_or_eq.mp hi with hi | rfl
  · exact h i hi
  · exact hk

/-- The part that starts with a byte that is not ASCII goes on with such bytes only. -/
theorem utf8Head_high {lead : UInt8} (rest : Bytes) (hlead : ¬ lead < 0x80) :
    ∃ k, (utf8Head lead rest).2 = k + 1 ∧ HighUpTo rest k := by
  have hnone := HighUpTo.zero rest
  unfold utf8Head
  rw [if_neg hlead]
  dsimp only
  split
  · split
    · rename_i h0
      exact ⟨1, rfl, hnone.succ (continuation_high h0)⟩
    · exact ⟨0, rfl, hnone⟩
  split
  · split
    · exact ⟨0, rfl, hnone⟩
    rename_i h0
    have hone := hnone.succ (@secondOfThree_high lead _ (by simpa using h0))
    split
    · exact ⟨1, rfl, hone⟩
    rename_i h1
    exact ⟨2, rfl, hone.succ (continuation_high (by simpa using h1))⟩
  split
  · split
    · exact ⟨0, rfl, hnone⟩
    rename_i h0
    have hone := hnone.succ (@secondOfFour_high lead _ (by simpa using h0))
    split
    · exact ⟨1, rfl, hone⟩
    rename_i h1
    have htwo := hone.succ (continuation_high (by simpa using h1))
    split
    · exact ⟨2, rfl, htwo⟩
    rename_i h2
    exact ⟨3, rfl, htwo.succ (continuation_high (by simpa using h2))⟩
  · exact ⟨0, rfl, hnone⟩

theorem take_isHigh {lead : UInt8} {rest : Bytes} {k : Nat} (hlead : ¬ lead < 0x80)
    (h : HighUpTo rest k) : IsHigh ((lead :: rest).take (k + 1)) := by
  refine ⟨by simp, fun b hb => ?_⟩
  rw [List.take_succ_cons] at hb
  rcases List.mem_cons.mp hb with rfl | hb
  · exact hlead
  · obtain ⟨i, hi, rfl⟩ := List.mem_iff_getElem.mp hb
    rw [List.length_take] at hi
    have hhigh := h i (by omega)
    rw [List.getD_eq_getElem _ _ (by omega)] at hhigh
    rwa [List.getElem_take]

theorem replacementCharacter_isHigh : IsHigh replacementCharacter := by
  constructor <;> decide +kernel

theorem utf8Head_ascii {lead : UInt8} (rest : Bytes) (h : lead < 0x80) :
    utf8Head lead rest = (true, 1) := by
  unfold utf8Head
  rw [if_pos h]

/-- Lossy conversion replaces parts without ASCII bytes. -/
theorem lossy_scan (fuel : Nat) (bs : Bytes) (h : bs.length ≤ fuel) :
    Lossy bs ((utf8Scan fuel bs).flatMap fun (ok, part) =>
      if ok then part else replacementCharacter) := by
  induction fuel generalizing bs with
  | zero =>
    rw [List.eq_nil_of_length_eq_zero (Nat.le_zero.mp h)]
    exact .nil
  | succ fuel ih =>
    cases bs with
    | nil => exact .nil
    | cons lead rest =>
      rw [List.length_cons] at h
      unfold utf8Scan
      by_cases hlead : lead < 0x80
      · rw [utf8Head_ascii rest hlead]
        exact .ascii lead (ih rest (by omega))
      · obtain ⟨k, hk, hhigh⟩ := utf8Head_high rest hlead
        have hpart := take_isHigh hlead hhigh
        have hrest := ih ((lead :: rest).drop (k + 1)) (by
          rw [List.length_drop, List.length_cons]
          omega)
        dsimp only
        rw [List.flatMap_cons, hk]
        have hkept : IsHigh (if (utf8Head lead rest).1 = true then (lead :: rest).take (k + 1)
            else replacementCharacter) := by
          split
          · exact hpart
          · exact replacementCharacter_isHigh
        have hall := Lossy.high hpart hkept hrest
        rwa [List.take_append_drop] at hall

theorem lossy_fromUtf8Lossy (bs : Bytes) : Lossy bs (fromUtf8Lossy bs) :=
  lossy_scan bs.length bs le_rfl

end ValkeyRdb
