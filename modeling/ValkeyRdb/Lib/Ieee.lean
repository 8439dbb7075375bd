import Mathlib.Data.Rat.Defs
import Mathlib.Data.Nat.Log
import ValkeyRdb.Lib.Bytes

/-!
# Binary floating-point numbers as bit patterns

A float is its bit pattern, so equality is equality of bits and every NaN payload
is kept. Arithmetic is exact arithmetic on rationals followed by rounding to the
nearest representable value, ties to even.
-/

namespace ValkeyRdb

/-- An IEEE-754 double. -/
structure F64 where
  bits : BitVec 64
  deriving DecidableEq

/-- An IEEE-754 single; only carried around, never computed with. -/
structure F32 where
  bits : BitVec 32
  deriving DecidableEq

namespace F64

/-- The double whose little-endian bytes are `b`. -/
def ofLeBytes (b : Bytes) : F64 := ⟨BitVec.ofNat 64 (leVal b)⟩

def isNegative (x : F64) : Bool := 2 ^ 63 ≤ x.bits.toNat

def exponent (x : F64) : Nat := x.bits.toNat / 2 ^ 52 % 2 ^ 11

def fraction (x : F64) : Nat := x.bits.toNat % 2 ^ 52

/-- Significand and binary exponent of a finite double. -/
def significand (x : F64) : Nat × Int :=
  if x.exponent = 0 then (x.fraction, -1074) else (2 ^ 52 + x.fraction, x.exponent - 1075)

/-- The rational a finite double stands for; `none` for infinities and NaNs. -/
def value (x : F64) : Option ℚ :=
  if x.exponent = 2047 then none
  else
    let (m, e) := x.significand
    let magnitude : ℚ := if 0 ≤ e then m * 2 ^ e.toNat else m / 2 ^ (-e).toNat
    some (if x.isNegative then -magnitude else magnitude)

def infinity : F64 := ⟨0x7FF0000000000000#64⟩
def negInfinity : F64 := ⟨0xFFF0000000000000#64⟩
def nan : F64 := ⟨0x7FF8000000000000#64⟩

def neg (x : F64) : F64 := ⟨x.bits ^^^ 0x8000000000000000#64⟩

/-- `a / b` rounded to an integer, ties to even. -/
def roundHalfEven (a b : Nat) : Nat :=
  let q := a / b
  let r := a % b
  if 2 * r < b then q else if b < 2 * r then q + 1 else q + q % 2

/-- The exponent of the leading bit of `a / b`. -/
def ilog2 (a b : Nat) : Int :=
  let k : Int := (Nat.log2 a : Int) - Nat.log2 b
  let below := if 0 ≤ k then a < b * 2 ^ k.toNat else a * 2 ^ (-k).toNat < b
  if below then k - 1 else k

/-- Nearest non-negative double to `a / b`, as its bit pattern: the significand
is rounded at the exponent of the result, and a carry moves into the exponent field. -/
def magnitudeBits (a b : Nat) : Nat :=
  if a = 0 then 0
  else
    let e : Int := max (-1074) (ilog2 a b - 52)
    let m := if 0 ≤ e then roundHalfEven a (b * 2 ^ e.toNat) else roundHalfEven (a * 2 ^ (-e).toNat) b
    min ((e + 1074).toNat * 2 ^ 52 + m) (2047 * 2 ^ 52)

/-- Nearest double to a rational, ties to even; zero is `+0`. -/
def ofRat (q : ℚ) : F64 :=
  let m := magnitudeBits q.num.natAbs q.den
  ⟨BitVec.ofNat 64 (if q < 0 then 2 ^ 63 + m else m)⟩

/-- A rational rounded to the nearest finite double value. -/
def round (q : ℚ) : ℚ := (ofRat q).value.getD 0

example : (ofRat (1 / 3)).bits = 0x3FD5555555555555#64 := by decide +kernel

end F64

/-- The single whose little-endian bytes are `b`. -/
def F32.ofLeBytes (b : Bytes) : F32 := ⟨BitVec.ofNat 32 (leVal b)⟩

/-- The double of the same value; a NaN keeps its payload and becomes quiet. -/
def F32.toF64 (x : F32) : F64 :=
  let n := x.bits.toNat
  let sign := n / 2 ^ 31 * 2 ^ 63
  let exponent := n / 2 ^ 23 % 2 ^ 8
  let fraction := n % 2 ^ 23
  let magnitude :=
    if exponent = 255 then 2047 * 2 ^ 52 + (if fraction = 0 then 0 else 2 ^ 51 ||| fraction * 2 ^ 29)
    else if exponent = 0 then F64.magnitudeBits fraction (2 ^ 149)
    else (exponent + 896) * 2 ^ 52 + fraction * 2 ^ 29
  ⟨BitVec.ofNat 64 (sign + magnitude)⟩

end ValkeyRdb
