import ValkeyRdb.Arrow.TypeNames
import ValkeyRdb.Cli.OutputFiles

/-!
# Command-line arguments (args.rs)
-/

namespace ValkeyRdb.Cli

/-! ### Integers and sizes -/

/-- The digits of `str::parse::<usize>`, with the texts of its errors. -/
def parseDigits : List Char → Nat → Except String Nat
  | [], n => .ok n
  | c :: cs, n =>
    if c.isDigit = true then
      if 10 * n + (c.toNat - 48) < 2 ^ 64 then parseDigits cs (10 * n + (c.toNat - 48))
      else .error "number too large to fit in target type"
    else .error "invalid digit found in string"

/-- `str::parse::<usize>`; a single sign is not a number. -/
def parseUsize : List Char → Except String Nat
  | [] => .error "cannot parse integer from empty string"
  | ['+'] => .error "invalid digit found in string"
  | '+' :: cs => parseDigits cs 0
  | cs => parseDigits cs 0

def valueNotPositive : String := "value must be > 0"

/-- args.rs:4 -/
def parsePositiveUsize (s : List Char) : Except String Nat :=
  match parseUsize s with
  | .error e => .error e
  | .ok n => if n = 0 then .error valueNotPositive else .ok n

/-- `strip_suffix` -/
def stripSuffix (suffix s : List Char) : Option (List Char) :=
  if suffix.isSuffixOf s = true then some (s.take (s.length - suffix.length)) else none

inductive SizeUnit where
  | gb
  | mb
  | kb
  | b
  | none
  deriving DecidableEq

namespace SizeUnit

def suffix : SizeUnit → List Char
  | gb => ['g', 'b']
  | mb => ['m', 'b']
  | kb => ['k', 'b']
  | b => ['b']
  | none => []

def multiplier : SizeUnit → Nat
  | gb => 1024 * 1024 * 1024
  | mb => 1024 * 1024
  | kb => 1024
  | b => 1
  | none => 1

end SizeUnit

/-- The chain of `strip_suffix` (args.rs:15-25). -/
def splitUnit (s : List Char) : List Char × SizeUnit :=
  match stripSuffix SizeUnit.gb.suffix s with
  | some n => (n, .gb)
  | none =>
    match stripSuffix SizeUnit.mb.suffix s with
    | some n => (n, .mb)
    | none =>
      match stripSuffix SizeUnit.kb.suffix s with
      | some n => (n, .kb)
      | none =>
        match stripSuffix SizeUnit.b.suffix s with
        | some n => (n, .b)
        | none => (s, .none)

def sizeOverflows (n multiplier : Nat) : String :=
  "byte size overflows: " ++ toString n ++ " * " ++ toString multiplier

/-- args.rs:13 -/
def parseByteSize (s : List Char) : Except String Nat :=
  let (numStr, unit) := splitUnit (toAsciiLowercase (trim s))
  match parseUsize (trim numStr) with
  | .error e => .error e
  | .ok n =>
    if n = 0 then .error valueNotPositive
    else if n * unit.multiplier < 2 ^ 64 then .ok (n * unit.multiplier)
    else .error (sizeOverflows n unit.multiplier)

/-! ### Which texts are sizes -/

/-- The number that some digits stand for, after `n`. -/
def digitsValue (n : Nat) (cs : List Char) : Nat := cs.foldl (fun n c => 10 * n + (c.toNat - 48)) n

/-- A number as `parse` accepts it: digits, perhaps behind a plus sign, below `2 ^ 64`. -/
def IsNumeral (s : List Char) (n : Nat) : Prop :=
  ∃ digits, digits ≠ [] ∧ (s = digits ∨ s = '+' :: digits) ∧ (∀ c ∈ digits, c.isDigit = true) ∧
    n = digitsValue 0 digits ∧ n < 2 ^ 64

theorem le_digitsValue (n : Nat) (cs : List Char) : n ≤ digitsValue n cs := by
  induction cs generalizing n with
  | nil => exact Nat.le_refl n
  | cons c cs ih =>
    have hrest := ih (10 * n + (c.toNat - 48))
    change n ≤ digitsValue (10 * n + (c.toNat - 48)) cs
    omega

theorem parseDigits_ok_iff {cs : List Char} {n m : Nat} (hn : n < 2 ^ 64) :
    parseDigits cs n = .ok m ↔ (∀ c ∈ cs, c.isDigit = true) ∧ m = digitsValue n cs ∧ m < 2 ^ 64 := by
  induction cs generalizing n with
  | nil =>
    simp only [parseDigits, digitsValue, List.foldl_nil, Except.ok.injEq]
    constructor
    · rintro rfl
      exact ⟨nofun, rfl, hn⟩
    · rintro ⟨-, rfl, -⟩
      rfl
  | cons c cs ih =>
    have hvalue : digitsValue n (c :: cs) = digitsValue (10 * n + (c.toNat - 48)) cs := rfl
    have hle := le_digitsValue (10 * n + (c.toNat - 48)) cs
    rw [parseDigits, List.forall_mem_cons, hvalue]
    by_cases hc : c.isDigit = true
    · rw [if_pos hc]
      by_cases hlt : 10 * n + (c.toNat - 48) < 2 ^ 64
      · rw [if_pos hlt, ih hlt]
        simp [hc]
      · rw [if_neg hlt]
        constructor
        · nofun
        · rintro ⟨-, rfl, hm⟩
          omega
    · rw [if_neg hc]
      simp [hc]

theorem parseUsize_ok_iff {s : List Char} {n : Nat} : parseUsize s = .ok n ↔ IsNumeral s n := by
  have hplain : ∀ cs : List Char, cs ≠ [] → (∀ ds, cs ≠ '+' :: ds) →
      (parseDigits cs 0 = .ok n ↔ IsNumeral cs n) := by
    intro cs hne hplus
    rw [parseDigits_ok_iff (by decide)]
    constructor
    · rintro ⟨hd, hv, hlt⟩
      exact ⟨cs, hne, .inl rfl, hd, hv, hlt⟩
    · rintro ⟨digits, -, rfl | h, hd, hv, hlt⟩
      · exact ⟨hd, hv, hlt⟩
      · exact absurd h (hplus digits)
  unfold parseUsize
  split
  · refine iff_of_false nofun ?_
    rintro ⟨digits, hne, h | h, -⟩
    · exact hne h.symm
    · cases h
  · refine iff_of_false nofun ?_
    rintro ⟨digits, hne, h | h, hd, -⟩
    · rw [← h] at hd
      exact absurd (hd '+' List.mem_cons_self) (by decide)
    · cases h
      exact hne rfl
  · rename_i cs hcs
    rw [parseDigits_ok_iff (by decide)]
    constructor
    · rintro ⟨hd, hv, hlt⟩
      exact ⟨cs, fun h => hcs (by rw [h]), .inr rfl, hd, hv, hlt⟩
    · rintro ⟨digits, -, h | h, hd, hv, hlt⟩
      · rw [← h] at hd
        exact absurd (hd '+' List.mem_cons_self) (by decide)
      · cases h
        exact ⟨hd, hv, hlt⟩
  · rename_i cs h1 h2 h3
    refine hplain s (fun h => h1 h) fun ds h => ?_
    exact h3 ds h

theorem stripSuffix_eq_some {suffix s n : List Char} (h : stripSuffix suffix s = some n) :
    s = n ++ suffix := by
  unfold stripSuffix at h
  split at h
  · rename_i hs
    obtain ⟨t, rfl⟩ := List.isSuffixOf_iff_suffix.mp hs
    cases h
    simp
  · cases h

theorem stripSuffix_append (t suffix : List Char) : stripSuffix suffix (t ++ suffix) = some t := by
  have hs : suffix.isSuffixOf (t ++ suffix) = true :=
    List.isSuffixOf_iff_suffix.mpr (List.suffix_append _ _)
  unfold stripSuffix
  rw [if_pos hs]
  simp

theorem stripSuffix_eq_none {suffix s : List Char} (h : ¬suffix <:+ s) : stripSuffix suffix s = none :=
  if_neg fun hs => h (List.isSuffixOf_iff_suffix.mp hs)

theorem splitUnit_append (s : List Char) : s = (splitUnit s).1 ++ (splitUnit s).2.suffix := by
  unfold splitUnit
  split
  · rename_i h
    exact stripSuffix_eq_some h
  split
  · rename_i h
    exact stripSuffix_eq_some h
  split
  · rename_i h
    exact stripSuffix_eq_some h
  split
  · rename_i h
    exact stripSuffix_eq_some h
  · exact (List.append_nil s).symm

/-- What is left of a unit ends in a digit or in white space. -/
theorem last_of_numeral {text : List Char} {n : Nat} (h : IsNumeral (trim text) n) {c : Char}
    (hc : text.getLast? = some c) : isWhiteSpace c = true ∨ c.isDigit = true := by
  obtain ⟨init, rfl⟩ := List.getLast?_eq_some_iff.mp hc
  by_cases hw : isWhiteSpace c = true
  · exact .inl hw
  · right
    have hdrop : (init ++ [c]).dropWhile isWhiteSpace = init.dropWhile isWhiteSpace ++ [c] := by
      rw [List.dropWhile_append]
      split
      · rename_i hnil
        rw [List.isEmpty_iff.mp hnil, List.dropWhile_cons_of_neg hw, List.nil_append]
      · rfl
    have htrim : trim (init ++ [c]) = init.dropWhile isWhiteSpace ++ [c] := by
      unfold trim
      rw [hdrop]
      exact List.rdropWhile_concat_neg _ _ _ hw
    obtain ⟨digits, hne, hs, hd, -⟩ := h
    rw [htrim] at hs
    have hlast : digits.getLast? = some c := by
      rcases hs with rfl | hs
      · exact List.getLast?_concat
      · have hgl : ('+' :: digits).getLast? = some c := hs ▸ List.getLast?_concat
        rwa [List.getLast?_cons_of_ne_nil hne] at hgl
    exact hd c (List.mem_of_getLast? hlast)

/-- A unit behind a number is found, and no other. -/
theorem splitUnit_numeral {text : List Char} {n : Nat} (h : IsNumeral (trim text) n)
    (unit : SizeUnit) : splitUnit (text ++ unit.suffix) = (text, unit) := by
  have hletters : ∀ c ∈ ['g', 'm', 'k', 'b'], ¬(isWhiteSpace c = true ∨ c.isDigit = true) := by
    simp [isWhiteSpace, Char.isDigit]
  have hletter : ∀ c ∈ ['g', 'm', 'k', 'b'], ∀ init, text ≠ init ++ [c] := by
    rintro c hc init rfl
    exact hletters c hc (last_of_numeral h List.getLast?_concat)
  have hfail : ∀ (u : SizeUnit) (s : List Char),
      (∀ rest, s.reverse ≠ u.suffix.reverse ++ rest) → stripSuffix u.suffix s = none := by
    intro u s hs
    apply stripSuffix_eq_none
    rintro ⟨t, rfl⟩
    exact hs t.reverse (by simp)
  cases unit with
  | gb =>
    unfold splitUnit
    rw [stripSuffix_append]
  | mb =>
    have hgb : stripSuffix SizeUnit.gb.suffix (text ++ SizeUnit.mb.suffix) = none :=
      hfail .gb _ (by simp [SizeUnit.suffix])
    unfold splitUnit
    rw [hgb, stripSuffix_append]
  | kb =>
    have hgb : stripSuffix SizeUnit.gb.suffix (text ++ SizeUnit.kb.suffix) = none :=
      hfail .gb _ (by simp [SizeUnit.suffix])
    have hmb : stripSuffix SizeUnit.mb.suffix (text ++ SizeUnit.kb.suffix) = none :=
      hfail .mb _ (by simp [SizeUnit.suffix])
    unfold splitUnit
    rw [hgb, hmb, stripSuffix_append]
  | b =>
    have hone : ∀ u ∈ [SizeUnit.gb, .mb, .kb],
        stripSuffix u.suffix (text ++ SizeUnit.b.suffix) = none := by
      intro u hu
      apply hfail
      intro rest hr
      simp only [List.mem_cons, List.not_mem_nil, or_false] at hu
      rcases hu with rfl | rfl | rfl <;> simp [SizeUnit.suffix] at hr
      · exact hletter 'g' (by simp) _ hr
      · exact hletter 'm' (by simp) _ hr
      · exact hletter 'k' (by simp) _ hr
    unfold splitUnit
    rw [hone .gb (by simp), hone .mb (by simp), hone .kb (by simp), stripSuffix_append]
  | none =>
    have hone : ∀ u ∈ [SizeUnit.gb, .mb, .kb, .b], stripSuffix u.suffix text = none := by
      intro u hu
      apply hfail
      intro rest hr
      have hb : ∃ init, text = init ++ ['b'] := by
        simp only [List.mem_cons, List.not_mem_nil, or_false] at hu
        rcases hu with rfl | rfl | rfl | rfl <;> simp [SizeUnit.suffix] at hr
        · exact ⟨rest.reverse ++ ['g'], by simpa using congrArg List.reverse hr⟩
        · exact ⟨rest.reverse ++ ['m'], by simpa using congrArg List.reverse hr⟩
        · exact ⟨rest.reverse ++ ['k'], by simpa using congrArg List.reverse hr⟩
        · exact ⟨rest.reverse, by simpa using congrArg List.reverse hr⟩
      obtain ⟨init, hinit⟩ := hb
      exact hletter 'b' (by simp) init hinit
    have hsuffix : text ++ SizeUnit.none.suffix = text := List.append_nil text
    unfold splitUnit
    rw [hsuffix, hone .gb (by simp), hone .mb (by simp), hone .kb (by simp), hone .b (by simp)]

/-- Texts of the form number, unit: the size in bytes, or what is wrong with it. -/
theorem parseByteSize_numeral {s text : List Char} {unit : SizeUnit} {m : Nat}
    (hs : toAsciiLowercase (trim s) = text ++ unit.suffix) (hm : IsNumeral (trim text) m) :
    parseByteSize s =
      if m = 0 then .error valueNotPositive
      else if m * unit.multiplier < 2 ^ 64 then .ok (m * unit.multiplier)
      else .error (sizeOverflows m unit.multiplier) := by
  unfold parseByteSize
  rw [hs, splitUnit_numeral hm]
  simp only [parseUsize_ok_iff.mpr hm]

/-- A size is a positive number, in any case and with white space around it and before its
unit, and nothing else; it is exact, or refused when it does not fit 64 bits. -/
theorem parse_byte_size_exact (s : List Char) :
    (∀ n, parseByteSize s = .ok n ↔ ∃ (unit : SizeUnit) (text : List Char) (m : Nat),
      toAsciiLowercase (trim s) = text ++ unit.suffix ∧ IsNumeral (trim text) m ∧ 0 < m ∧
        n = m * unit.multiplier ∧ n < 2 ^ 64) ∧
    ∀ (unit : SizeUnit) (text : List Char) (m : Nat), toAsciiLowercase (trim s) = text ++ unit.suffix →
      IsNumeral (trim text) m → 0 < m → 2 ^ 64 ≤ m * unit.multiplier →
        parseByteSize s = .error (sizeOverflows m unit.multiplier) := by
  refine ⟨fun n => ⟨fun h => ?_, ?_⟩, fun unit text m hs hm hpos hbig => ?_⟩
  · have hsplit := splitUnit_append (toAsciiLowercase (trim s))
    unfold parseByteSize at h
    generalize splitUnit (toAsciiLowercase (trim s)) = p at h hsplit
    obtain ⟨text, unit⟩ := p
    cases hu : parseUsize (trim text) with
    | error e =>
      simp only [hu] at h
      cases h
    | ok m =>
      simp only [hu] at h
      split at h
      · cases h
      · rename_i hpos
        split at h
        · rename_i hlt
          cases h
          exact ⟨unit, text, m, hsplit, parseUsize_ok_iff.mp hu, Nat.pos_of_ne_zero hpos, rfl, hlt⟩
        · cases h
  · rintro ⟨unit, text, m, hs, hm, hpos, rfl, hlt⟩
    rw [parseByteSize_numeral hs hm, if_neg (Nat.pos_iff_ne_zero.mp hpos), if_pos hlt]
  · rw [parseByteSize_numeral hs hm, if_neg (Nat.pos_iff_ne_zero.mp hpos),
      if_neg (Nat.not_lt.mpr hbig)]

example : parseByteSize " 10 MB".toList = .ok (10 * 1024 * 1024) := by decide +kernel

end ValkeyRdb.Cli
