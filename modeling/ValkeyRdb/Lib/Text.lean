import ValkeyRdb.Lib.Ieee

/-!
# Text as byte strings

A string is the list of its UTF-8 bytes. UTF-8 validation and lossy conversion,
decimal rendering of integers, and decimal parsing of integers and doubles, as
the Rust standard library documents them.
-/

namespace ValkeyRdb

/-! ### UTF-8 -/

def isContinuation (b : UInt8) : Bool := 0x80 ≤ b && b ≤ 0xBF

/-- Whether `second` may follow the lead byte of a three-byte sequence. -/
def secondOfThree (lead second : UInt8) : Bool :=
  if lead = 0xE0 then 0xA0 ≤ second && second ≤ 0xBF
  else if lead = 0xED then 0x80 ≤ second && second ≤ 0x9F
  else isContinuation second

/-- Whether `second` may follow the lead byte of a four-byte sequence. -/
def secondOfFour (lead second : UInt8) : Bool :=
  if lead = 0xF0 then 0x90 ≤ second && second ≤ 0xBF
  else if lead = 0xF4 then 0x80 ≤ second && second ≤ 0x8F
  else isContinuation second

/-- The first scalar value of a non-empty byte string: whether it is well formed,
and its length or the length of the ill-formed part to be replaced. -/
def utf8Head (lead : UInt8) (rest : Bytes) : Bool × Nat :=
  let at_ (i : Nat) : UInt8 := rest.getD i 0
  if lead < 0x80 then (true, 1)
  else if 0xC2 ≤ lead && lead ≤ 0xDF then
    if isContinuation (at_ 0) then (true, 2) else (false, 1)
  else if 0xE0 ≤ lead && lead ≤ 0xEF then
    if !secondOfThree lead (at_ 0) then (false, 1)
    else if !isContinuation (at_ 1) then (false, 2)
    else (true, 3)
  else if 0xF0 ≤ lead && lead ≤ 0xF4 then
    if !secondOfFour lead (at_ 0) then (false, 1)
    else if !isContinuation (at_ 1) then (false, 2)
    else if !isContinuation (at_ 2) then (false, 3)
    else (true, 4)
  else (false, 1)

/-- Scan of a byte string; `fuel` bounds the number of scalar values. -/
def utf8Scan : Nat → Bytes → List (Bool × Bytes)
  | 0, _ => []
  | _ + 1, [] => []
  | fuel + 1, lead :: rest =>
    let (ok, n) := utf8Head lead rest
    (ok, (lead :: rest).take n) :: utf8Scan fuel ((lead :: rest).drop n)

/-- `str::from_utf8` accepts the bytes. -/
def validUtf8 (bs : Bytes) : Bool := (utf8Scan bs.length bs).all (·.1)

/-- U+FFFD. -/
def replacementCharacter : Bytes := [0xEF, 0xBF, 0xBD]

/-- `String::from_utf8_lossy`. -/
def fromUtf8Lossy (bs : Bytes) : Bytes :=
  (utf8Scan bs.length bs).flatMap fun (ok, part) => if ok then part else replacementCharacter

/-! ### Integers -/

/-- Decimal digits of a natural number, most significant first. -/
def natText (n : Nat) : Bytes := (Nat.toDigits 10 n).map fun c => UInt8.ofNat c.toNat

/-- Canonical decimal text of an integer (`to_string().into_bytes()`). -/
def intText (i : Int) : Bytes := if i < 0 then 45 :: natText i.natAbs else natText i.natAbs

example : intText (-7) = [45, 55] := by decide

def isDigit (b : UInt8) : Bool := 48 ≤ b && b ≤ 57

/-- Value of a string of decimal digits. -/
def digitsVal (bs : Bytes) : Nat := bs.foldl (fun acc b => 10 * acc + (b.toNat - 48)) 0

theorem digit_char_byte {c : Char} (h : c.isDigit = true) :
    (UInt8.ofNat c.toNat).toNat = c.toNat ∧ 48 ≤ c.toNat ∧ c.toNat ≤ 57 := by
  have hrange : 48 ≤ c.toNat ∧ c.toNat ≤ 57 := by
    simpa [Char.isDigit, UInt32.le_iff_toNat_le] using h
  refine ⟨?_, hrange⟩
  rw [UInt8.toNat_ofNat']
  omega

/-- Reading the decimal digits of a number back. -/
theorem digitsVal_natText (n : Nat) : digitsVal (natText n) = n := by
  have hfold : ∀ (cs : List Char) (acc : Nat), (∀ c ∈ cs, c.isDigit = true) →
      (cs.map fun c => UInt8.ofNat c.toNat).foldl (fun acc b => 10 * acc + (b.toNat - 48)) acc =
        Nat.ofDigitChars 10 cs acc := by
    intro cs
    induction cs with
    | nil => exact fun acc _ => rfl
    | cons c cs ih =>
      intro acc hcs
      rw [List.forall_mem_cons] at hcs
      rw [List.map_cons, List.foldl_cons, (digit_char_byte hcs.1).1, Nat.ofDigitChars_cons]
      exact ih _ hcs.2
  have hdigits : ∀ c ∈ Nat.toDigits 10 n, c.isDigit = true := fun c hc =>
    Nat.isDigit_of_mem_toDigits (by decide) (by decide) hc
  exact (hfold _ 0 hdigits).trans Nat.ofDigitChars_ten_toDigits

theorem natText_injective : Function.Injective natText := by
  intro m n h
  calc m = digitsVal (natText m) := (digitsVal_natText m).symm
    _ = digitsVal (natText n) := by rw [h]
    _ = n := digitsVal_natText n

/-- A number does not start with a sign. -/
theorem natText_ne_minus (n : Nat) (rest : Bytes) : natText n ≠ 45 :: rest := by
  intro h
  have hmem : (45 : UInt8) ∈ natText n := by
    rw [h]
    exact List.mem_cons_self
  obtain ⟨c, hc, hbyte⟩ := List.mem_map.mp hmem
  obtain ⟨hnat, hlow, -⟩ :=
    digit_char_byte (Nat.isDigit_of_mem_toDigits (by decide) (by decide) hc)
  rw [hbyte] at hnat
  have h45 : (45 : UInt8).toNat = 45 := rfl
  omega

theorem intText_injective : Function.Injective intText := by
  intro i j h
  unfold intText at h
  split at h <;> split at h
  · have hnat := natText_injective (List.cons.inj h).2
    omega
  · exact absurd h.symm (natText_ne_minus _ _)
  · exact absurd h (natText_ne_minus _ _)
  · have hnat := natText_injective h
    omega

/-- `str::parse` for an unsigned integer type below `bound`: an optional `+`, then
at least one digit, without overflow. -/
def parseUnsigned (bound : Nat) (bs : Bytes) : Option Nat :=
  let digits := if bs.head? = some 43 then bs.tail else bs
  if digits ≠ [] ∧ digits.all isDigit ∧ digitsVal digits < bound then some (digitsVal digits)
  else none

/-! ### Doubles -/

def lower (b : UInt8) : UInt8 := if 65 ≤ b && b ≤ 90 then b + 32 else b

/-- Splits a leading sign off; `true` is minus. -/
def splitSign (bs : Bytes) : Bool × Bytes :=
  match bs with
  | 45 :: rest => (true, rest)
  | 43 :: rest => (false, rest)
  | _ => (false, bs)

/-- The exponent part of a decimal float literal: nothing, or `e` with an integer. -/
def parseExponent (bs : Bytes) : Option Int :=
  match bs with
  | [] => some 0
  | b :: rest =>
    if lower b = 101 then
      let (minus, digits) := splitSign rest
      if digits ≠ [] ∧ digits.all isDigit then
        some (if minus then -(digitsVal digits : Int) else digitsVal digits)
      else none
    else none

/-- The magnitude of a decimal float literal. -/
def parseMagnitude (bs : Bytes) : Option ℚ :=
  let whole := bs.takeWhile isDigit
  let afterWhole := bs.dropWhile isDigit
  let (frac, afterFrac) :=
    match afterWhole with
    | 46 :: rest => (rest.takeWhile isDigit, rest.dropWhile isDigit)
    | _ => ([], afterWhole)
  if whole = [] ∧ frac = [] then none
  else
    (parseExponent afterFrac).map fun (e : Int) =>
      let scale : Int := e - frac.length
      let digits : ℚ := digitsVal (whole ++ frac)
      if 0 ≤ scale then digits * 10 ^ scale.toNat else digits / 10 ^ (-scale).toNat

/-- `str::parse::<f64>`: a sign, then `inf`, `infinity`, `nan` in any case, or a
decimal literal rounded to the nearest double. -/
def parseF64 (bs : Bytes) : Option F64 :=
  let (minus, body) := splitSign bs
  let signed (x : F64) : F64 := if minus then x.neg else x
  let word := body.map lower
  if word = [105, 110, 102] ∨ word = [105, 110, 102, 105, 110, 105, 116, 121] then
    some (signed F64.infinity)
  else if word = [110, 97, 110] then some (signed F64.nan)
  else (parseMagnitude body).map fun q => signed (F64.ofRat q)

-- "-2.75"
example : (parseF64 [45, 50, 46, 55, 53]).map (·.bits) = some 0xC006000000000000#64 := by
  decide +kernel

end ValkeyRdb
