import ValkeyRdb.Types

/-!
# Virtual types (detect.rs)

Doubles are computed with as the rationals they stand for, rounded after every operation.
-/

namespace ValkeyRdb

/-! ### HyperLogLog -/

/-- detect.rs:17 -/
def isHll (data : Bytes) : Bool :=
  decide (16 ≤ data.length) && data.take 4 == [72, 89, 76, 76] &&
    (data[4]? == some (0 : UInt8) || data[4]? == some (1 : UInt8))

/-- detect.rs:24 -/
def hllEncoding (data : Bytes) : String :=
  match (data[4]? : Option UInt8) with
  | some 0 => "dense"
  | some 1 => "sparse"
  | _ => "unknown"

/-- detect.rs:37; a set top bit marks the cached cardinality as invalid. -/
def hllCachedCardinality (data : Bytes) : Int :=
  if data.length < 16 then -1
  else
    let raw := leVal ((data.take 16).drop 8)
    if 2 ^ 63 ≤ raw then -1 else raw

/-! ### Geo -/

/-- One round of the bit gathering in `deinterleave64`. -/
def gather (x : BitVec 64) (shift : Nat) (mask : BitVec 64) : BitVec 64 :=
  (x ||| (x >>> shift)) &&& mask

/-- The even bits of `interleaved`, moved together. -/
def evenBits (x : BitVec 64) : BitVec 64 :=
  let x := gather x 0 0x5555555555555555#64
  let x := gather x 1 0x3333333333333333#64
  let x := gather x 2 0x0F0F0F0F0F0F0F0F#64
  let x := gather x 4 0x00FF00FF00FF00FF#64
  let x := gather x 8 0x0000FFFF0000FFFF#64
  gather x 16 0x00000000FFFFFFFF#64

/-- detect.rs:116 -/
def deinterleave64 (interleaved : BitVec 64) : BitVec 64 :=
  evenBits interleaved ||| (evenBits (interleaved >>> 1) <<< 32)

/-- The midpoint of cell `i` of the `2^26` cells of `[lo, hi]` (detect.rs:72-93). -/
def cellCenter (lo hi : ℚ) (i : Nat) : F64 :=
  let scale := F64.round (hi - lo)
  let divisor : ℚ := 2 ^ 26
  let bound (k : ℚ) : ℚ := F64.round (lo + F64.round (F64.round (k / divisor) * scale))
  F64.ofRat (F64.round (bound i + bound (F64.round (i + 1))) / 2)

/-- detect.rs:60; longitude and latitude of a non-negative integer below `2^52`. -/
def geohashDecode (score : F64) : Option (F64 × F64) :=
  match score.value with
  | none => none
  | some q =>
    if q < 0 ∨ q.den ≠ 1 ∨ 2 ^ 52 ≤ q then none
    else
      let hashSep := deinterleave64 (BitVec.ofNat 64 q.num.toNat)
      let ilato := hashSep.toNat % 2 ^ 32
      let ilono := (hashSep >>> 32).toNat % 2 ^ 32
      let latMax := F64.round (8505112878 / 100000000)
      some (cellCenter (-180) 180 ilono, cellCenter (-latMax) latMax ilato)

/-- detect.rs:102 -/
def isGeo (members : List (Bytes × F64)) : Bool :=
  !members.isEmpty && members.all fun m => (geohashDecode m.2).isSome

end ValkeyRdb
