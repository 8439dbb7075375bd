import ValkeyRdb.Compact

/-!
# Intset decoder (intset.rs)

`[4-byte LE encoding] [4-byte LE length] [elements...]`; the encoding is the width of
the signed little-endian elements.
-/

namespace ValkeyRdb.Intset

def intsetHdrSize : Nat := 8

/-- Cap on the number of elements (intset.rs:23). -/
def maxIntsetElements : Nat := 10000000

/-- The loop of `decode` over the elements (intset.rs:68-98). -/
def decodeElements (data : Bytes) (elemSize : Nat) : Nat → Nat → Res (List Bytes)
  | 0, _ => .ok []
  | n + 1, pos => do
    let elemEnd ← add64 pos elemSize
    let val := signed (8 * elemSize) (leVal (← slice data pos elemEnd))
    let pos' := pos + elemSize
    if 2 ^ 64 ≤ pos' then corrupt "intset position overflow"
    else
      let rest ← decodeElements data elemSize n pos'
      pure (intText val :: rest)

/-- intset.rs:26-101 -/
def decode (data : Bytes) : Res (List Bytes) :=
  if data.length < intsetHdrSize then corrupt "intset too short for header"
  else do
    let encoding := leVal (← slice data 0 4)
    let length := leVal (← slice data 4 8)
    if length > maxIntsetElements then
      corrupt s!"intset element count {length} exceeds limit {maxIntsetElements}"
    else if ¬(encoding = 2 ∨ encoding = 4 ∨ encoding = 8) then
      corrupt s!"intset unknown encoding: {encoding}"
    else
      let expectedSize := intsetHdrSize + length * encoding
      if 2 ^ 64 ≤ expectedSize then corrupt "intset data size overflow"
      else if data.length ≠ expectedSize then
        corrupt s!"intset size mismatch: expected {expectedSize} bytes, have {data.length}"
      else decodeElements data encoding length intsetHdrSize

theorem decodeElements_returns {data : Bytes} (h64 : data.length < 2 ^ 64) (elemSize n pos : Nat)
    (h : pos + n * elemSize ≤ data.length) :
    Returns (decodeElements data elemSize n pos) (fun ms => ms.length = n) := by
  induction n generalizing pos with
  | zero => rfl
  | succ n ih =>
    have hn : (n + 1) * elemSize = n * elemSize + elemSize := Nat.succ_mul n elemSize
    rw [decodeElements, add64_eq (by omega), ok_bind, slice_eq ⟨by omega, by omega⟩, ok_bind]
    refine ExceptMeets.ite (fun _ => returns_corrupt) fun _ => ?_
    exact (ih (pos + elemSize) (by omega)).bind fun rest hr => congrArg (· + 1) hr

theorem decode_returns (data : Bytes) : Returns (decode data) (fun _ => True) := by
  refine ExceptMeets.ite (fun _ => returns_corrupt) fun hlen => ?_
  simp only [intsetHdrSize] at hlen
  rw [slice_eq ⟨by omega, by omega⟩, ok_bind, slice_eq ⟨by omega, by omega⟩, ok_bind]
  refine ExceptMeets.ite (fun _ => returns_corrupt) fun _ => ?_
  refine ExceptMeets.ite (fun _ => returns_corrupt) fun _ => ?_
  refine ExceptMeets.ite (fun _ => returns_corrupt) fun _ => ?_
  refine ExceptMeets.ite (fun _ => returns_corrupt) fun hsize => ?_
  exact (decodeElements_returns (by omega) _ _ _ (by omega)).mono fun _ _ => trivial

end ValkeyRdb.Intset
