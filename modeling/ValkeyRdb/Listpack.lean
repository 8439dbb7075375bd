import ValkeyRdb.Compact

/-!
# Listpack decoder (listpack.rs)

`[4-byte LE total_bytes] [2-byte LE num_elements] [entries...] [0xFF]`, each entry
`[encoding byte(s)] [data bytes...] [backlen (1-5 bytes)]`. The pre-allocation hint
of `num_elements` is not modelled.
-/

namespace ValkeyRdb.Listpack

def lpHdrSize : Nat := 6
def lpEof : UInt8 := 0xFF

/-- The entry at the head of `buf` and the bytes it takes without its backlen
(listpack.rs:118-206). -/
def decodeEntry (buf : Bytes) : Res (CompactEntry × Nat) :=
  if buf.isEmpty then corrupt "listpack entry: empty buffer"
  else do
    let b0 ← index buf 0
    if b0 &&& 0x80 = 0 then pure (.int (b0 &&& 0x7F).toNat, 1)
    else if b0 &&& 0xC0 = 0x80 then
      stringEntry buf 1 (b0 &&& 0x3F).toNat "listpack" "6-bit string"
    else if b0 &&& 0xE0 = 0xC0 then
      ensureLen buf 2 "listpack" "13-bit int"
      let b1 ← index buf 1
      let raw := ((b0 &&& 0x1F).toNat <<< 8) ||| b1.toNat
      pure (.int (signExtend raw 13), 2)
    else if b0 &&& 0xF0 = 0xE0 then
      ensureLen buf 2 "listpack" "12-bit string header"
      let b1 ← index buf 1
      let len := ((b0 &&& 0x0F).toNat <<< 8) ||| b1.toNat
      stringEntry buf 2 len "listpack" "12-bit string"
    else if b0 = 0xF0 then
      ensureLen buf 5 "listpack" "32-bit string header"
      let len := leVal (← slice buf 1 5)
      stringEntry buf 5 len "listpack" "32-bit string"
    else if b0 = 0xF1 then intEntry buf 2 "listpack" "16-bit int"
    else if b0 = 0xF2 then int24Entry buf "listpack" "24-bit int"
    else if b0 = 0xF3 then intEntry buf 4 "listpack" "32-bit int"
    else if b0 = 0xF4 then intEntry buf 8 "listpack" "64-bit int"
    else corrupt s!"listpack unknown encoding byte 0x{hexText 2 b0.toNat}"

/-- Number of backlen bytes after an entry of `entryLen` bytes (listpack.rs:214-226). -/
def backlenSize (entryLen : Nat) : Nat :=
  if entryLen ≤ 127 then 1
  else if entryLen < 16383 then 2
  else if entryLen < 2097151 then 3
  else if entryLen < 268435455 then 4
  else 5

/-- The loop of `decode_backlen` over the bytes in reverse order. -/
def decodeBacklenLoop : Bytes → Nat → Nat → Res Nat
  | [], val, _ => .ok val
  | b :: rest, val, shift =>
    if 28 < shift then corrupt "listpack backlen exceeds 5 bytes"
    else decodeBacklenLoop rest (val ||| ((b &&& 0x7F).toNat <<< shift)) (shift + 7)

/-- listpack.rs:232-250 -/
def decodeBacklen (buf : Bytes) : Res Nat :=
  if buf.isEmpty then corrupt "listpack backlen: empty"
  else do
    let b0 ← index buf 0
    if b0 &&& 0x80 ≠ 0 then corrupt "listpack backlen: first byte missing terminator bit"
    else decodeBacklenLoop buf.reverse 0 0

/-- The loop of `decode` from position `pos` (listpack.rs:66-111). -/
def decodeFrom (data : Bytes) : Nat → Nat → Res (List CompactEntry)
  | 0, _ => .error .diverge
  | fuel + 1, pos =>
    if pos ≥ data.length then corrupt "listpack missing EOF byte"
    else do
      let enc ← index data pos
      if enc = lpEof then
        let last ← sub64 data.length 1
        if pos ≠ last then
          corrupt s!"listpack EOF at byte {pos} but blob length is {data.length}, expected EOF at {last}"
        else pure []
      else
        let (entry, entryLen) ← decodeEntry (← sliceFrom data pos)
        let blSize := backlenSize entryLen
        let pos' := pos + entryLen + blSize
        if 2 ^ 64 ≤ pos' then corrupt "listpack position overflow"
        else if pos' > data.length then corrupt "listpack entry overflows blob"
        else
          let backlenStart ← sub64 pos' blSize
          let decodedBl ← decodeBacklen (← slice data backlenStart pos')
          if decodedBl ≠ entryLen then
            corrupt s!"listpack backlen mismatch: expected {entryLen}, decoded {decodedBl}"
          else
            let rest ← decodeFrom data fuel pos'
            pure (entry :: rest)

/-- listpack.rs:40-114 -/
def decode (data : Bytes) : Res (List CompactEntry) :=
  if data.length < lpHdrSize + 1 then corrupt "listpack too short for header + EOF"
  else do
    let totalBytes := leVal (← slice data 0 4)
    if totalBytes ≠ data.length then
      corrupt s!"listpack total_bytes header ({totalBytes}) does not match blob length ({data.length})"
    else
      let _numElements := leVal (← slice data 4 6)
      decodeFrom data data.length lpHdrSize

/-! ### Every blob is decoded or rejected -/

theorem decodeEntry_returns (buf : Bytes) : Returns (decodeEntry buf) (TakesFrom buf) := by
  refine ExceptMeets.ite (fun _ => returns_corrupt) fun hne => ?_
  have hpos : 0 < buf.length := List.length_pos_of_ne_nil (by simpa using hne)
  rw [index_lt hpos, ok_bind]
  refine ExceptMeets.ite (fun _ => ⟨le_rfl, hpos⟩) fun _ => ?_
  refine ExceptMeets.ite (fun _ => stringEntry_returns le_rfl) fun _ => ?_
  refine ExceptMeets.ite (fun _ => ?_) fun _ => ?_
  · refine (ensureLen_returns buf 2 _ _).bind fun _ hl => ?_
    rw [index_lt (show 1 < buf.length by omega), ok_bind]
    exact ⟨by dsimp only; omega, hl⟩
  refine ExceptMeets.ite (fun _ => ?_) fun _ => ?_
  · refine (ensureLen_returns buf 2 _ _).bind fun _ hl => ?_
    rw [index_lt (show 1 < buf.length by omega), ok_bind]
    exact stringEntry_returns (by decide)
  refine ExceptMeets.ite (fun _ => ?_) fun _ => ?_
  · refine (ensureLen_returns buf 5 _ _).bind fun _ hl => ?_
    rw [slice_eq ⟨by decide, hl⟩, ok_bind]
    exact stringEntry_returns (by decide)
  refine ExceptMeets.ite (fun _ => intEntry_returns buf 2 _ _) fun _ => ?_
  refine ExceptMeets.ite (fun _ => int24Entry_returns buf _ _) fun _ => ?_
  refine ExceptMeets.ite (fun _ => intEntry_returns buf 4 _ _) fun _ => ?_
  exact ExceptMeets.ite (fun _ => intEntry_returns buf 8 _ _) fun _ => returns_corrupt

theorem decodeBacklenLoop_returns (bs : Bytes) (val shift : Nat) :
    Returns (decodeBacklenLoop bs val shift) (fun _ => True) := by
  induction bs generalizing val shift with
  | nil => trivial
  | cons b rest ih =>
    rw [decodeBacklenLoop]
    split
    · exact returns_corrupt
    · exact ih _ _

theorem decodeBacklen_returns (buf : Bytes) : Returns (decodeBacklen buf) (fun _ => True) := by
  rw [decodeBacklen]
  split
  · exact returns_corrupt
  · rename_i hne
    rw [index_lt (List.length_pos_of_ne_nil (by simpa using hne))]
    change Returns (if _ then _ else _) _
    split
    · exact returns_corrupt
    · exact decodeBacklenLoop_returns _ _ _

theorem backlenSize_pos (n : Nat) : 1 ≤ backlenSize n := by
  rw [backlenSize]
  split_ifs <;> omega

/-- The fuel `data.length` is enough because every entry moves the position; an entry
and its backlen take at least two bytes. -/
theorem decodeFrom_returns (data : Bytes) (fuel pos : Nat) (h : data.length < fuel + pos)
    (hf : 0 < fuel) :
    Returns (decodeFrom data fuel pos) (fun es => es.length + pos ≤ data.length) := by
  induction fuel generalizing pos with
  | zero => omega
  | succ fuel ih =>
    refine ExceptMeets.ite (fun _ => returns_corrupt) fun hpos => ?_
    have hlt : pos < data.length := by omega
    rw [index_lt hlt, ok_bind]
    refine ExceptMeets.ite (fun _ => ?_) fun _ => ?_
    · rw [sub64_eq (by omega), ok_bind]
      refine ExceptMeets.ite (fun _ => returns_corrupt) fun _ => ?_
      simp only [exceptMeets_pure, List.length_nil]
      omega
    · rw [sliceFrom_eq hlt.le, ok_bind]
      refine (decodeEntry_returns (data.drop pos)).bind fun r hr => ?_
      obtain ⟨entry, entryLen⟩ := r
      obtain ⟨hr1, hr2⟩ := hr
      rw [List.length_drop] at hr2
      dsimp only at hr1 hr2 ⊢
      have hbl := backlenSize_pos entryLen
      refine ExceptMeets.ite (fun _ => returns_corrupt) fun _ => ?_
      refine ExceptMeets.ite (fun _ => returns_corrupt) fun hfit => ?_
      rw [sub64_eq (by omega), ok_bind, slice_eq ⟨by omega, by omega⟩, ok_bind]
      refine (decodeBacklen_returns _).bind fun bl _ => ?_
      refine ExceptMeets.ite (fun _ => returns_corrupt) fun _ => ?_
      refine (ih (pos + entryLen + backlenSize entryLen) (by omega) (by omega)).bind
        fun rest hrest => ?_
      simp only [exceptMeets_pure, List.length_cons]
      omega

theorem decode_returns (data : Bytes) :
    Returns (decode data) (fun es => es.length ≤ data.length) := by
  refine ExceptMeets.ite (fun _ => returns_corrupt) fun hlen => ?_
  have h7 : 7 ≤ data.length := by
    simp only [lpHdrSize] at hlen
    omega
  rw [slice_eq ⟨by omega, by omega⟩, ok_bind]
  refine ExceptMeets.ite (fun _ => returns_corrupt) fun _ => ?_
  rw [slice_eq ⟨by omega, by omega⟩, ok_bind]
  refine (decodeFrom_returns data data.length lpHdrSize (by simp [lpHdrSize])
    (by omega)).mono fun es hes => by omega

end ValkeyRdb.Listpack
