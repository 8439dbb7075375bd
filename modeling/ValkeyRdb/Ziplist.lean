import ValkeyRdb.Compact

/-!
# Ziplist decoder (ziplist.rs)

`[4-byte LE zlbytes] [4-byte LE zltail] [2-byte LE zllen] [entries...] [0xFF]`, each
entry `[prevlen (1 or 5 bytes)] [encoding byte(s)] [data bytes...]`. String lengths
are big endian, integer data little endian. The pre-allocation hint of `zllen` is not
modelled.
-/

namespace ValkeyRdb.Ziplist

def zlHdrSize : Nat := 10
def zlEnd : UInt8 := 0xFF

/-- Bytes of the prevlen field and its value (ziplist.rs:141-162). -/
def decodePrevlen (buf : Bytes) : Res (Nat × Nat) :=
  if buf.isEmpty then corrupt "ziplist prevlen: empty"
  else do
    let b0 ← index buf 0
    if b0 = zlEnd then corrupt "ziplist prevlen byte is 0xFF (end marker)"
    else if b0 < 254 then pure (1, b0.toNat)
    else
      ensureLen buf 5 "ziplist" "prevlen 5-byte"
      let len := leVal (← slice buf 1 5)
      pure (5, len)

/-- An integer entry from its encoding byte onward (ziplist.rs:166-222). -/
def decodeIntEntry (buf : Bytes) : Res (CompactEntry × Nat) := do
  let enc ← index buf 0
  if enc = 0xC0 then intEntry buf 2 "ziplist" "16-bit int"
  else if enc = 0xD0 then intEntry buf 4 "ziplist" "32-bit int"
  else if enc = 0xE0 then intEntry buf 8 "ziplist" "64-bit int"
  else if enc = 0xF0 then int24Entry buf "ziplist" "24-bit int"
  else if enc = 0xFE then intEntry buf 1 "ziplist" "8-bit int"
  else if 0xF1 ≤ enc ∧ enc ≤ 0xFD then
    let val ← sub64 (enc &&& 0x0F).toNat 1
    pure (.int val, 1)
  else corrupt s!"ziplist unknown integer encoding 0x{hexText 2 enc.toNat}"

/-- The encoding and data of an entry, after its prevlen (ziplist.rs:92-134). -/
def decodeBody (rest : Bytes) : Res (CompactEntry × Nat) := do
  let enc ← index rest 0
  let top2 := enc >>> 6
  if top2 = 0 then stringEntry rest 1 (enc &&& 0x3F).toNat "ziplist" "6-bit string"
  else if top2 = 1 then
    ensureLen rest 2 "ziplist" "14-bit string header"
    let b1 ← index rest 1
    let len := ((enc &&& 0x3F).toNat <<< 8) ||| b1.toNat
    stringEntry rest 2 len "ziplist" "14-bit string"
  else if top2 = 2 then
    if enc ≠ 0x80 then
      corrupt s!"ziplist 32-bit string encoding has non-zero low bits: 0x{hexText 2 enc.toNat}"
    else
      ensureLen rest 5 "ziplist" "32-bit string header"
      let len := beVal (← slice rest 1 5)
      stringEntry rest 5 len "ziplist" "32-bit string"
  else if top2 = 3 then decodeIntEntry rest
  else .error .panic

/-- The entry at the head of `buf` and all the bytes it takes (ziplist.rs:76-138). -/
def decodeEntry (buf : Bytes) : Res (CompactEntry × Nat) :=
  if buf.isEmpty then corrupt "ziplist entry: empty buffer"
  else do
    let (prevlenSize, _) ← decodePrevlen buf
    let rest ← sliceFrom buf prevlenSize
    if rest.isEmpty then corrupt "ziplist entry: truncated after prevlen"
    else
      let (entry, encDataSize) ← decodeBody rest
      let totalConsumed ← checkedAdd prevlenSize encDataSize "ziplist" "entry total"
      pure (entry, totalConsumed)

/-- The loop of `decode` from position `pos` (ziplist.rs:54-69). -/
def decodeFrom (data : Bytes) : Nat → Nat → Res (List CompactEntry)
  | 0, _ => .error .diverge
  | fuel + 1, pos =>
    if pos ≥ data.length then corrupt "ziplist missing end byte"
    else do
      let b ← index data pos
      if b = zlEnd then pure []
      else
        let (entry, consumed) ← decodeEntry (← sliceFrom data pos)
        let pos' := pos + consumed
        if 2 ^ 64 ≤ pos' then corrupt "ziplist position overflow"
        else
          let rest ← decodeFrom data fuel pos'
          pure (entry :: rest)

/-- ziplist.rs:29-72 -/
def decode (data : Bytes) : Res (List CompactEntry) :=
  if data.length < zlHdrSize + 1 then corrupt "ziplist too short for header + end byte"
  else do
    let zlbytes := leVal (← slice data 0 4)
    if zlbytes ≠ data.length then
      corrupt s!"ziplist zlbytes ({zlbytes}) != blob size ({data.length})"
    else
      let _zllen := leVal (← slice data 8 10)
      decodeFrom data data.length zlHdrSize

/-! ### Every blob is decoded or rejected -/

theorem decodePrevlen_returns (buf : Bytes) :
    Returns (decodePrevlen buf) (fun r => 1 ≤ r.1 ∧ r.1 ≤ buf.length) := by
  refine ExceptMeets.ite (fun _ => returns_corrupt) fun hne => ?_
  have hpos : 0 < buf.length := List.length_pos_of_ne_nil (by simpa using hne)
  rw [index_lt hpos, ok_bind]
  refine ExceptMeets.ite (fun _ => returns_corrupt) fun _ => ?_
  refine ExceptMeets.ite (fun _ => ⟨le_rfl, hpos⟩) fun _ => ?_
  refine (ensureLen_returns buf 5 _ _).bind fun _ hl => ?_
  rw [slice_eq ⟨by decide, hl⟩, ok_bind]
  exact ⟨by dsimp only; omega, hl⟩

theorem decodeIntEntry_returns {buf : Bytes} (hpos : 0 < buf.length) :
    Returns (decodeIntEntry buf) (TakesFrom buf) := by
  rw [decodeIntEntry, index_lt hpos, ok_bind]
  refine ExceptMeets.ite (fun _ => intEntry_returns buf 2 _ _) fun _ => ?_
  refine ExceptMeets.ite (fun _ => intEntry_returns buf 4 _ _) fun _ => ?_
  refine ExceptMeets.ite (fun _ => intEntry_returns buf 8 _ _) fun _ => ?_
  refine ExceptMeets.ite (fun _ => int24Entry_returns buf _ _) fun _ => ?_
  refine ExceptMeets.ite (fun _ => intEntry_returns buf 1 _ _) fun _ => ?_
  refine ExceptMeets.ite (fun himm => ?_) fun _ => returns_corrupt
  -- the low nibble of an immediate is at least one, so the subtraction cannot wrap
  have hnibble : ∀ n < 256, 0xF1 ≤ UInt8.ofNat n → UInt8.ofNat n ≤ 0xFD →
      1 ≤ (UInt8.ofNat n &&& 0x0F).toNat := by decide +kernel
  have h1 := hnibble buf[0].toNat buf[0].toNat_lt
  rw [UInt8.ofNat_toNat] at h1
  rw [sub64_eq (h1 himm.1 himm.2), ok_bind]
  exact ⟨le_rfl, hpos⟩

theorem decodeBody_returns {rest : Bytes} (hpos : 0 < rest.length) :
    Returns (decodeBody rest) (TakesFrom rest) := by
  rw [decodeBody, index_lt hpos, ok_bind]
  refine ExceptMeets.ite (fun _ => stringEntry_returns le_rfl) fun h0 => ?_
  refine ExceptMeets.ite (fun _ => ?_) fun h1 => ?_
  · refine (ensureLen_returns rest 2 _ _).bind fun _ hl => ?_
    rw [index_lt (show 1 < rest.length by omega), ok_bind]
    exact stringEntry_returns (by decide)
  refine ExceptMeets.ite (fun _ => ?_) fun h2 => ?_
  · refine ExceptMeets.ite (fun _ => returns_corrupt) fun _ => ?_
    refine (ensureLen_returns rest 5 _ _).bind fun _ hl => ?_
    rw [slice_eq ⟨by decide, hl⟩, ok_bind]
    exact stringEntry_returns (by decide)
  refine ExceptMeets.ite (fun _ => decodeIntEntry_returns hpos) fun h3 => ?_
  -- the two top bits have no fifth value
  have htop : ∀ n < 256, UInt8.ofNat n >>> 6 = 0 ∨ UInt8.ofNat n >>> 6 = 1 ∨
      UInt8.ofNat n >>> 6 = 2 ∨ UInt8.ofNat n >>> 6 = 3 := by decide +kernel
  have h := htop rest[0].toNat rest[0].toNat_lt
  rw [UInt8.ofNat_toNat] at h
  rcases h with h | h | h | h <;> contradiction

theorem decodeEntry_returns (buf : Bytes) : Returns (decodeEntry buf) (TakesFrom buf) := by
  refine ExceptMeets.ite (fun _ => returns_corrupt) fun _ => ?_
  refine (decodePrevlen_returns buf).bind fun p hp => ?_
  obtain ⟨prevlenSize, prevlen⟩ := p
  dsimp only at hp ⊢
  rw [sliceFrom_eq hp.2, ok_bind]
  refine ExceptMeets.ite (fun _ => returns_corrupt) fun hne => ?_
  have hpos : 0 < (buf.drop prevlenSize).length :=
    List.length_pos_of_ne_nil (by simpa using hne)
  refine (decodeBody_returns hpos).bind fun r hr => ?_
  obtain ⟨entry, encDataSize⟩ := r
  obtain ⟨hr1, hr2⟩ := hr
  rw [List.length_drop] at hr2
  dsimp only at hr1 hr2
  refine (checkedAdd_returns prevlenSize encDataSize _ _).bind fun total ht => ?_
  exact ⟨by dsimp only; omega, by dsimp only; omega⟩

/-- The fuel `data.length` is enough because every entry moves the position. -/
theorem decodeFrom_returns (data : Bytes) (fuel pos : Nat) (h : data.length < fuel + pos)
    (hf : 0 < fuel) : Returns (decodeFrom data fuel pos) (fun _ => True) := by
  induction fuel generalizing pos with
  | zero => omega
  | succ fuel ih =>
    refine ExceptMeets.ite (fun _ => returns_corrupt) fun hpos => ?_
    have hlt : pos < data.length := by omega
    rw [index_lt hlt, ok_bind]
    refine ExceptMeets.ite (fun _ => trivial) fun _ => ?_
    rw [sliceFrom_eq hlt.le, ok_bind]
    refine (decodeEntry_returns (data.drop pos)).bind fun r hr => ?_
    obtain ⟨entry, consumed⟩ := r
    obtain ⟨hr1, hr2⟩ := hr
    rw [List.length_drop] at hr2
    dsimp only at hr1 hr2 ⊢
    refine ExceptMeets.ite (fun _ => returns_corrupt) fun _ => ?_
    exact (ih (pos + consumed) (by omega) (by omega)).bind fun _ _ => trivial

theorem decode_returns (data : Bytes) : Returns (decode data) (fun _ => True) := by
  refine ExceptMeets.ite (fun _ => returns_corrupt) fun hlen => ?_
  have h11 : 11 ≤ data.length := by
    simp only [zlHdrSize] at hlen
    omega
  rw [slice_eq ⟨by omega, by omega⟩, ok_bind]
  refine ExceptMeets.ite (fun _ => returns_corrupt) fun _ => ?_
  rw [slice_eq ⟨by omega, by omega⟩, ok_bind]
  exact decodeFrom_returns data data.length zlHdrSize (by simp [zlHdrSize]) (by omega)

end ValkeyRdb.Ziplist
