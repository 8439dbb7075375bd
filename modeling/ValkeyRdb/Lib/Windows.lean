import Mathlib.Data.PNat.Basic
import Mathlib.Data.List.Basic

/-!
# Windows of a list

Cutting a list into consecutive windows of one width, the last of which may be shorter.
-/

namespace ValkeyRdb

def windows {α : Type} (width : ℕ+) (xs : List α) : List (List α) :=
  (List.range ((xs.length + width - 1) / width)).map fun i => (xs.drop (i * width)).take width

section Windows

variable {α β : Type} {width : ℕ+}

@[simp] theorem windows_length (xs : List α) :
    (windows width xs).length = (xs.length + width - 1) / width := by
  simp [windows]

theorem window_start {n i : Nat} (h : i < (n + width - 1) / width) : i * width < n := by
  have hpos := width.pos
  have hmul : i * width + width ≤ n + width - 1 := by
    have hle : (i + 1) * width ≤ n + width - 1 := (Nat.le_div_iff_mul_le hpos).mp h
    rw [Nat.succ_mul] at hle
    exact hle
  omega

theorem take_windows (xs : List α) (count : Nat) :
    ((List.range count).map fun i => (xs.drop (i * width)).take width).flatten =
      xs.take (count * width) := by
  induction count with
  | zero => simp
  | succ count ih =>
    rw [List.range_succ, List.map_append, List.flatten_append, ih, Nat.succ_mul, List.take_add]
    simp

theorem windows_join {xs : List α} {n : Nat} (h : xs.length ≤ n) :
    ((List.range ((n + width - 1) / width)).map fun i => (xs.drop (i * width)).take width).flatten =
      xs := by
  have hpos := width.pos
  have hdiv := Nat.div_add_mod (n + width - 1) width
  have hmod := Nat.mod_lt (n + width - 1) hpos
  rw [Nat.mul_comm] at hdiv
  rw [take_windows]
  apply List.take_of_length_le
  omega

theorem windows_of_le {xs : List α} (hne : xs ≠ []) (hle : xs.length ≤ width) :
    windows width xs = [xs] := by
  have hpos := width.pos
  have hlen := List.length_pos_of_ne_nil hne
  have hdiv : (xs.length + width - 1) / width = 1 := Nat.div_eq_of_lt_le (by omega) (by omega)
  simp [windows, hdiv, List.take_of_length_le hle]

theorem windows_append {xs ys : List α} (hx : xs.length = width) :
    windows width (xs ++ ys) = xs :: windows width ys := by
  have hpos := width.pos
  have hcount : ((xs ++ ys).length + width - 1) / width = (ys.length + width - 1) / width + 1 := by
    have hsplit : (xs ++ ys).length + width - 1 = ys.length + width - 1 + width := by
      simp only [List.length_append, hx]
      omega
    rw [hsplit, Nat.add_div_right _ hpos]
  unfold windows
  rw [hcount, List.range_succ_eq_map, List.map_cons, List.map_map]
  congr 1
  · simp [← hx]
  · apply List.map_congr_left
    intro i _
    have hdrop : Nat.succ i * (width : Nat) = xs.length + i * width := by
      rw [Nat.succ_mul, hx, Nat.add_comm]
    have hnil : xs.drop (xs.length + i * width) = [] := List.drop_eq_nil_of_le (by omega)
    simp [hdrop, List.drop_append, hnil]

/-- Parts that are all full but the last are the windows of what they join to. -/
theorem windows_unique {pre : List (List α)} {last : List α}
    (hpre : ∀ p ∈ pre, p.length = width) (hne : last ≠ []) (hle : last.length ≤ width) :
    windows width (pre ++ [last]).flatten = pre ++ [last] := by
  induction pre with
  | nil => simpa using windows_of_le hne hle
  | cons p pre ih =>
    have hp := hpre p List.mem_cons_self
    have hrest := ih fun q hq => hpre q (List.mem_cons_of_mem _ hq)
    rw [List.cons_append, List.flatten_cons, windows_append hp, hrest]

end Windows

end ValkeyRdb
