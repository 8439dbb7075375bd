import ValkeyRdb.Listpack

/-!
# Listpacks as they are written

Nine entry encodings, each followed by its length in 7-bit groups. The element count of
the header is free: readers take it for a hint.
-/

namespace ValkeyRdb.Listpack

/-! ### Entries -/

inductive EntryForm where
  | uint7 (n : Nat) (h : n < 2 ^ 7)
  | int13 (i : Int) (h : FitsSigned 13 i)
  | int16 (i : Int) (h : FitsSigned 16 i)
  | int24 (i : Int) (h : FitsSigned 24 i)
  | int32 (i : Int) (h : FitsSigned 32 i)
  | int64 (i : Int) (h : FitsSigned 64 i)
  | str6 (s : Bytes) (h : s.length < 2 ^ 6)
  | str12 (s : Bytes) (h : s.length < 2 ^ 12)
  | str32 (s : Bytes) (h : s.length < 2 ^ 32)

namespace EntryForm

def value : EntryForm → CompactEntry
  | uint7 n _ => .int n
  | int13 i _ => .int i
  | int16 i _ => .int i
  | int24 i _ => .int i
  | int32 i _ => .int i
  | int64 i _ => .int i
  | str6 s _ => .str s
  | str12 s _ => .str s
  | str32 s _ => .str s

def bytes : EntryForm → Bytes
  | uint7 n _ => [UInt8.ofNat n]
  | int13 i _ => [UInt8.ofNat (0xC0 + unsigned 13 i / 256), UInt8.ofNat (unsigned 13 i)]
  | int16 i _ => 0xF1 :: leBytes 2 (unsigned 16 i)
  | int24 i _ => 0xF2 :: leBytes 3 (unsigned 24 i)
  | int32 i _ => 0xF3 :: leBytes 4 (unsigned 32 i)
  | int64 i _ => 0xF4 :: leBytes 8 (unsigned 64 i)
  | str6 s _ => UInt8.ofNat (0x80 + s.length) :: s
  | str12 s _ => UInt8.ofNat (0xE0 + s.length / 256) :: UInt8.ofNat s.length :: s
  | str32 s _ => 0xF0 :: (leBytes 4 s.length ++ s)

end EntryForm

theorem tag_uint7 : ∀ n < 128, UInt8.ofNat n &&& 0x80 = 0 ∧ (UInt8.ofNat n &&& 0x7F).toNat = n ∧
    UInt8.ofNat n ≠ lpEof := by decide +kernel

theorem tag_str6 : ∀ n < 64, UInt8.ofNat (0x80 + n) &&& 0x80 ≠ 0 ∧
    UInt8.ofNat (0x80 + n) &&& 0xC0 = 0x80 ∧ (UInt8.ofNat (0x80 + n) &&& 0x3F).toNat = n ∧
    UInt8.ofNat (0x80 + n) ≠ lpEof := by decide +kernel

theorem tag_int13 : ∀ n < 32, UInt8.ofNat (0xC0 + n) &&& 0x80 ≠ 0 ∧
    UInt8.ofNat (0xC0 + n) &&& 0xC0 ≠ 0x80 ∧ UInt8.ofNat (0xC0 + n) &&& 0xE0 = 0xC0 ∧
    (UInt8.ofNat (0xC0 + n) &&& 0x1F).toNat = n ∧ UInt8.ofNat (0xC0 + n) ≠ lpEof := by
  decide +kernel

theorem tag_str12 : ∀ n < 16, UInt8.ofNat (0xE0 + n) &&& 0x80 ≠ 0 ∧
    UInt8.ofNat (0xE0 + n) &&& 0xC0 ≠ 0x80 ∧ UInt8.ofNat (0xE0 + n) &&& 0xE0 ≠ 0xC0 ∧
    UInt8.ofNat (0xE0 + n) &&& 0xF0 = 0xE0 ∧ (UInt8.ofNat (0xE0 + n) &&& 0x0F).toNat = n ∧
    UInt8.ofNat (0xE0 + n) ≠ lpEof := by decide +kernel

theorem EntryForm.head (f : EntryForm) : ∃ b rest, f.bytes = b :: rest ∧ b ≠ lpEof := by
  cases f with
  | uint7 n h => exact ⟨_, _, rfl, (tag_uint7 n h).2.2⟩
  | int13 i h =>
    have hlt := unsigned_lt 13 i
    exact ⟨_, _, rfl, (tag_int13 _ (by omega)).2.2.2.2⟩
  | int16 i h => exact ⟨_, _, rfl, by decide⟩
  | int24 i h => exact ⟨_, _, rfl, by decide⟩
  | int32 i h => exact ⟨_, _, rfl, by decide⟩
  | int64 i h => exact ⟨_, _, rfl, by decide⟩
  | str6 s h => exact ⟨_, _, rfl, (tag_str6 _ h).2.2.2⟩
  | str12 s h => exact ⟨_, _, rfl, (tag_str12 _ (by omega)).2.2.2.2.2⟩
  | str32 s h => exact ⟨_, _, rfl, by decide⟩

theorem decodeEntry_str32 (xs : Bytes) : decodeEntry (0xF0 :: xs) = (do
    ensureLen (0xF0 :: xs) 5 "listpack" "32-bit string header"
    let len := leVal (← slice (0xF0 :: xs) 1 5)
    stringEntry (0xF0 :: xs) 5 len "listpack" "32-bit string") := rfl

theorem decodeEntry_int16 (xs : Bytes) :
    decodeEntry (0xF1 :: xs) = intEntry (0xF1 :: xs) 2 "listpack" "16-bit int" := rfl

theorem decodeEntry_int24 (xs : Bytes) :
    decodeEntry (0xF2 :: xs) = int24Entry (0xF2 :: xs) "listpack" "24-bit int" := rfl

theorem decodeEntry_int32 (xs : Bytes) :
    decodeEntry (0xF3 :: xs) = intEntry (0xF3 :: xs) 4 "listpack" "32-bit int" := rfl

theorem decodeEntry_int64 (xs : Bytes) :
    decodeEntry (0xF4 :: xs) = intEntry (0xF4 :: xs) 8 "listpack" "64-bit int" := rfl

theorem decodeEntry_form (f : EntryForm) (rest : Bytes) :
    decodeEntry (f.bytes ++ rest) = .ok (f.value, f.bytes.length) := by
  cases f with
  | uint7 n h =>
    obtain ⟨htop, hval, -⟩ := tag_uint7 n h
    change (if UInt8.ofNat n &&& 0x80 = 0 then _ else _ : Res (CompactEntry × Nat)) = _
    rw [if_pos htop, hval]
    rfl
  | int13 i h =>
    have hlt := unsigned_lt 13 i
    obtain ⟨h1, h2, h3, hval, -⟩ := tag_int13 (unsigned 13 i / 256) (by omega)
    have hraw : ((UInt8.ofNat (0xC0 + unsigned 13 i / 256) &&& 0x1F).toNat <<< 8 |||
        (UInt8.ofNat (unsigned 13 i)).toNat) = unsigned 13 i := by
      rw [hval, shift_or_byte, UInt8.toNat_ofNat']
      omega
    change (if _ &&& 0x80 = 0 then _ else if _ &&& 0xC0 = 0x80 then _ else
      if _ &&& 0xE0 = 0xC0 then _ else _ : Res (CompactEntry × Nat)) = _
    rw [if_neg h1, if_neg h2, if_pos h3, ensureLen_eq (by simp [EntryForm.bytes]), ok_bind]
    change (.ok (.int (signExtend (_ ||| _) 13), 2) : Res (CompactEntry × Nat)) = _
    rw [hraw, signExtend_eq (by decide) hlt, signed_unsigned (by decide) h]
    rfl
  | int16 i h => exact (decodeEntry_int16 _).trans (intEntry_form (w := 2) (by decide) h rest)
  | int24 i h => exact (decodeEntry_int24 _).trans (int24Entry_form h rest)
  | int32 i h => exact (decodeEntry_int32 _).trans (intEntry_form (w := 4) (by decide) h rest)
  | int64 i h => exact (decodeEntry_int64 _).trans (intEntry_form (w := 8) (by decide) h rest)
  | str6 s h =>
    obtain ⟨h1, h2, hlen, -⟩ := tag_str6 s.length h
    change (if _ &&& 0x80 = 0 then _ else if _ &&& 0xC0 = 0x80 then _ else _ :
      Res (CompactEntry × Nat)) = _
    rw [if_neg h1, if_pos h2, hlen]
    exact stringEntry_form [_] s rest _ _ (by simp; omega)
  | str12 s h =>
    obtain ⟨h1, h2, h3, h4, hval, -⟩ := tag_str12 (s.length / 256) (by omega)
    have hlen : ((UInt8.ofNat (0xE0 + s.length / 256) &&& 0x0F).toNat <<< 8 |||
        (UInt8.ofNat s.length).toNat) = s.length := by
      rw [hval, shift_or_byte, UInt8.toNat_ofNat']
      omega
    change (if _ &&& 0x80 = 0 then _ else if _ &&& 0xC0 = 0x80 then _ else
      if _ &&& 0xE0 = 0xC0 then _ else if _ &&& 0xF0 = 0xE0 then _ else _ :
      Res (CompactEntry × Nat)) = _
    rw [if_neg h1, if_neg h2, if_neg h3, if_pos h4, ensureLen_eq (by simp [EntryForm.bytes]),
      ok_bind]
    change stringEntry _ 2 (_ ||| _) _ _ = _
    rw [hlen]
    exact stringEntry_form [_, _] s rest _ _ (by simp; omega)
  | str32 s h =>
    have hlen : leVal (leBytes 4 s.length) = s.length := leVal_leBytes_of_lt h
    have hslice : slice (0xF0 :: (leBytes 4 s.length ++ s) ++ rest) 1 5 =
        .ok (leBytes 4 s.length) := by
      have hmid := slice_append [0xF0] (leBytes 4 s.length) (s ++ rest) (n := 5) (by simp)
      simpa using hmid
    have hlong : 5 ≤ (0xF0 :: (leBytes 4 s.length ++ s) ++ rest).length := by simp
    have hdec := decodeEntry_str32 (leBytes 4 s.length ++ s ++ rest)
    rw [← List.cons_append, ensureLen_eq hlong, ok_bind, hslice, ok_bind, hlen] at hdec
    refine hdec.trans ?_
    have hstr := stringEntry_form (0xF0 :: leBytes 4 s.length) s rest "listpack"
      "32-bit string" (by simp; omega)
    simpa [EntryForm.bytes, EntryForm.value] using hstr

/-! ### Back lengths -/

/-- The groups of seven bits of `n`, the low one first; all but the last are marked. -/
def backlenGroups : Nat → Nat → Bytes
  | 0, n => [UInt8.ofNat n]
  | k + 1, n => UInt8.ofNat (128 + n % 128) :: backlenGroups k (n / 128)

/-- `n` in as many groups as the source's thresholds say. -/
def backlenBytes (n : Nat) : Bytes := (backlenGroups (backlenSize n - 1) n).reverse

theorem length_backlenGroups (k n : Nat) : (backlenGroups k n).length = k + 1 := by
  induction k generalizing n with
  | zero => rfl
  | succ k ih => rw [backlenGroups, List.length_cons, ih]

theorem length_backlenBytes (n : Nat) : (backlenBytes n).length = backlenSize n := by
  have hpos := backlenSize_pos n
  rw [backlenBytes, List.length_reverse, length_backlenGroups]
  omega

theorem group_low : ∀ m < 128, (UInt8.ofNat (128 + m) &&& 0x7F).toNat = m ∧
    (UInt8.ofNat m &&& 0x7F).toNat = m ∧ UInt8.ofNat m &&& 0x80 = 0 := by decide +kernel

theorem or_shift {val m shift : Nat} (h : val < 2 ^ shift) :
    val ||| (m <<< shift) = val + m * 2 ^ shift := by
  rw [Nat.or_comm, Nat.shiftLeft_eq, Nat.mul_comm, ← Nat.two_pow_add_eq_or_of_lt h]
  omega

theorem decodeBacklenLoop_groups (k n val shift : Nat) (hn : n < 128 ^ (k + 1))
    (hv : val < 2 ^ shift) (hs : shift + 7 * k ≤ 28) :
    decodeBacklenLoop (backlenGroups k n) val shift = .ok (val + n * 2 ^ shift) := by
  induction k generalizing n val shift with
  | zero =>
    obtain ⟨-, hlow, -⟩ := group_low n (by omega)
    rw [backlenGroups, decodeBacklenLoop, if_neg (by omega), hlow, or_shift hv]
    rfl
  | succ k ih =>
    obtain ⟨hlow, -, -⟩ := group_low (n % 128) (Nat.mod_lt n (by decide))
    have hdiv : n / 128 < 128 ^ (k + 1) := by
      rw [Nat.div_lt_iff_lt_mul (by decide), ← pow_succ]
      exact hn
    have hpow : (2 : Nat) ^ (shift + 7) = 2 ^ shift * 128 := pow_add 2 shift 7
    have hlt : n % 128 * 2 ^ shift ≤ 127 * 2 ^ shift :=
      Nat.mul_le_mul_right _ (by omega)
    have hval : val + n % 128 * 2 ^ shift < 2 ^ (shift + 7) := by
      rw [hpow]
      omega
    have hsum : val + n % 128 * 2 ^ shift + n / 128 * 2 ^ (shift + 7) = val + n * 2 ^ shift := by
      have hn' : n = 128 * (n / 128) + n % 128 := (Nat.div_add_mod n 128).symm
      rw [hpow]
      calc val + n % 128 * 2 ^ shift + n / 128 * (2 ^ shift * 128)
          = val + (128 * (n / 128) + n % 128) * 2 ^ shift := by ring
        _ = val + n * 2 ^ shift := by rw [← hn']
    rw [backlenGroups, decodeBacklenLoop, if_neg (by omega), hlow, or_shift hv,
      ih _ _ _ hdiv hval (by omega), hsum]

/-- The first byte of a back length is the last group, which is not marked. -/
theorem backlenGroups_reverse_head (k n : Nat) :
    ∃ rest, (backlenGroups k n).reverse = UInt8.ofNat (n / 128 ^ k) :: rest := by
  induction k generalizing n with
  | zero => exact ⟨[], by simp [backlenGroups]⟩
  | succ k ih =>
    obtain ⟨rest, hrest⟩ := ih (n / 128)
    refine ⟨rest ++ [UInt8.ofNat (128 + n % 128)], ?_⟩
    rw [backlenGroups, List.reverse_cons, hrest, Nat.div_div_eq_div_mul, ← pow_succ']
    rfl

theorem decodeBacklen_bytes {n : Nat} (h : n < 2 ^ 35) : decodeBacklen (backlenBytes n) = .ok n := by
  obtain ⟨k, hk, hn, hk4⟩ : ∃ k, backlenSize n = k + 1 ∧ n < 128 ^ (k + 1) ∧ k ≤ 4 := by
    rw [backlenSize]
    split_ifs
    · exact ⟨0, rfl, by omega, by omega⟩
    · exact ⟨1, rfl, by omega, by omega⟩
    · exact ⟨2, rfl, by omega, by omega⟩
    · exact ⟨3, rfl, by omega, by omega⟩
    · exact ⟨4, rfl, by omega, by omega⟩
  have hbytes : backlenBytes n = (backlenGroups k n).reverse := by
    rw [backlenBytes, hk, Nat.add_sub_cancel]
  obtain ⟨rest, hhead⟩ := backlenGroups_reverse_head k n
  have htop : n / 128 ^ k < 128 := by
    rw [Nat.div_lt_iff_lt_mul (by positivity), ← pow_succ']
    exact hn
  obtain ⟨-, -, hunmarked⟩ := group_low _ htop
  have hloop := decodeBacklenLoop_groups k n 0 0 hn (by decide) (by omega)
  rw [Nat.zero_add, pow_zero, Nat.mul_one] at hloop
  have hrev : (backlenBytes n).reverse = backlenGroups k n := by
    rw [hbytes, List.reverse_reverse]
  rw [hhead] at hbytes
  rw [decodeBacklen, hrev, hloop, hbytes]
  change (if UInt8.ofNat (n / 128 ^ k) &&& 0x80 ≠ 0 then _ else _ : Res Nat) = _
  rw [if_neg (by rw [hunmarked]; simp)]

/-! ### Listpacks -/

/-- An entry with its back length. -/
def EntryForm.entryBytes (f : EntryForm) : Bytes := f.bytes ++ backlenBytes f.bytes.length

/-- A listpack; its size must fit the four bytes of the header. -/
structure Form where
  entries : List EntryForm
  numElements : Nat
  size_lt : lpHdrSize + (entries.flatMap EntryForm.entryBytes).length + 1 < 2 ^ 32

namespace Form

def value (f : Form) : List CompactEntry := f.entries.map EntryForm.value

def size (f : Form) : Nat := lpHdrSize + (f.entries.flatMap EntryForm.entryBytes).length + 1

def bytes (f : Form) : Bytes :=
  leBytes 4 f.size ++ leBytes 2 f.numElements ++ f.entries.flatMap EntryForm.entryBytes ++ [lpEof]

theorem length_bytes (f : Form) : f.bytes.length = f.size := by
  simp only [bytes, size, lpHdrSize, List.length_append, length_leBytes, List.length_singleton]

end Form

theorem length_le_entryBytes (entries : List EntryForm) :
    entries.length ≤ (entries.flatMap EntryForm.entryBytes).length := by
  induction entries with
  | nil => exact le_rfl
  | cons entry entries ih =>
    have hpos := backlenSize_pos entry.bytes.length
    simp only [List.flatMap_cons, List.length_cons, List.length_append, EntryForm.entryBytes,
      length_backlenBytes] at ih ⊢
    omega

theorem decodeFrom_entries (entries : List EntryForm) (pre : Bytes) (fuel : Nat)
    (h32 : (pre ++ entries.flatMap EntryForm.entryBytes ++ [lpEof]).length < 2 ^ 32)
    (hfuel : entries.length < fuel) :
    decodeFrom (pre ++ entries.flatMap EntryForm.entryBytes ++ [lpEof]) fuel pre.length =
      .ok (entries.map EntryForm.value) := by
  induction entries generalizing pre fuel with
  | nil =>
    obtain ⟨fuel, rfl⟩ : ∃ k, fuel = k + 1 := ⟨fuel - 1, by simp at hfuel; omega⟩
    have hend : index (pre ++ [lpEof]) pre.length = .ok lpEof := index_append pre _ (k := 0) rfl
    rw [List.flatMap_nil, List.append_nil, decodeFrom, if_neg (by simp), hend, ok_bind, if_pos rfl,
      sub64_eq (by simp), ok_bind, if_neg (by simp)]
    rfl
  | cons entry entries ih =>
    obtain ⟨fuel, rfl⟩ : ∃ k, fuel = k + 1 := ⟨fuel - 1, by simp at hfuel; omega⟩
    have hrest := ih (pre ++ entry.entryBytes) fuel (by simpa [List.append_assoc] using h32)
      (by simpa using hfuel)
    generalize hpost : entries.flatMap EntryForm.entryBytes ++ [lpEof] = post at hrest h32
    have hdata : pre ++ (entry :: entries).flatMap EntryForm.entryBytes ++ [lpEof] =
        pre ++ (entry.bytes ++ (backlenBytes entry.bytes.length ++ post)) := by
      rw [List.flatMap_cons, EntryForm.entryBytes, ← hpost]
      simp only [List.append_assoc]
    have hdata' : pre ++ entry.entryBytes ++ entries.flatMap EntryForm.entryBytes ++ [lpEof] =
        pre ++ (entry.bytes ++ (backlenBytes entry.bytes.length ++ post)) := by
      rw [EntryForm.entryBytes, ← hpost]
      simp only [List.append_assoc]
    rw [hdata'] at hrest
    rw [hdata]
    generalize hblob : pre ++ (entry.bytes ++ (backlenBytes entry.bytes.length ++ post)) = blob
      at hrest
    have hlen : blob.length = pre.length + (entry.bytes.length +
        (backlenSize entry.bytes.length + post.length)) := by
      rw [← hblob]
      simp only [List.length_append, length_backlenBytes]
    obtain ⟨b, tail, hhead, hb⟩ := entry.head
    have hindex : index blob pre.length = .ok b := by
      rw [← hblob, hhead]
      exact index_append pre _ (k := 0) rfl
    have hslice := sliceFrom_append pre (entry.bytes ++ (backlenBytes entry.bytes.length ++ post))
    have hentry := decodeEntry_form entry (backlenBytes entry.bytes.length ++ post)
    have hback : slice blob (pre.length + entry.bytes.length)
        (pre.length + entry.bytes.length + backlenSize entry.bytes.length) =
        .ok (backlenBytes entry.bytes.length) := by
      have h := slice_append (pre ++ entry.bytes) (backlenBytes entry.bytes.length) post
        (n := pre.length + entry.bytes.length + backlenSize entry.bytes.length)
        (by simp only [List.length_append, length_backlenBytes])
      rwa [List.append_assoc, hblob, List.length_append] at h
    have hsmall : blob.length < 2 ^ 32 := by
      rw [← hblob, ← hdata]
      exact h32
    have hpos : (pre ++ entry.entryBytes).length =
        pre.length + entry.bytes.length + backlenSize entry.bytes.length := by
      simp only [EntryForm.entryBytes, List.length_append, length_backlenBytes]
      omega
    rw [hpos] at hrest
    rw [hblob] at hslice
    rw [decodeFrom, if_neg (by rw [hhead] at hlen; simp at hlen; omega), hindex, ok_bind, if_neg hb,
      hslice, ok_bind, hentry, ok_bind]
    dsimp only
    rw [if_neg (by omega), if_neg (by omega), sub64_eq (by omega), ok_bind, Nat.add_sub_cancel,
      hback, ok_bind, decodeBacklen_bytes (by omega), ok_bind, if_neg (by simp), hrest, ok_bind]
    rfl

theorem decode_form (f : Form) : decode f.bytes = .ok f.value := by
  have hsize : f.bytes.length = f.size := f.length_bytes
  have h32 : f.size < 2 ^ 32 := f.size_lt
  have htotal : slice f.bytes 0 4 = .ok (leBytes 4 f.size) := by
    have h := slice_append [] (leBytes 4 f.size) (leBytes 2 f.numElements ++
      f.entries.flatMap EntryForm.entryBytes ++ [lpEof]) (n := 4) (by simp)
    simpa [Form.bytes] using h
  have hnum : slice f.bytes 4 6 = .ok (leBytes 2 f.numElements) := by
    have h := slice_append (leBytes 4 f.size) (leBytes 2 f.numElements)
      (f.entries.flatMap EntryForm.entryBytes ++ [lpEof]) (n := 6) (by simp)
    simpa [Form.bytes] using h
  have hentries := decodeFrom_entries f.entries (leBytes 4 f.size ++ leBytes 2 f.numElements)
    f.bytes.length (by rw [← Form.bytes, hsize]; exact h32) (by
      have hle := length_le_entryBytes f.entries
      rw [hsize, Form.size]
      omega)
  have hpre : (leBytes 4 f.size ++ leBytes 2 f.numElements).length = lpHdrSize := by simp [lpHdrSize]
  rw [← Form.bytes, hpre] at hentries
  rw [decode, if_neg (by rw [hsize, Form.size]; omega), htotal, ok_bind, leVal_leBytes_of_lt h32,
    if_neg (by rw [hsize]; simp), hnum, ok_bind]
  exact hentries

/-- Decoding inverts encoding: every list of entries, in any encodings, is decoded from its
listpack, whatever its header says about the number of elements. -/
theorem decode_inverts_encode (entries : List EntryForm) (numElements : Nat)
    (hsize : lpHdrSize + (entries.flatMap EntryForm.entryBytes).length + 1 < 2 ^ 32) :
    decode (leBytes 4 (lpHdrSize + (entries.flatMap EntryForm.entryBytes).length + 1) ++
      leBytes 2 numElements ++ entries.flatMap EntryForm.entryBytes ++ [lpEof]) =
      .ok (entries.map EntryForm.value) :=
  decode_form ⟨entries, numElements, hsize⟩

/-- The numbers 7 and -1 and the string "a". -/
theorem decode_inverts_encode_three :
    decode [15, 0, 0, 0, 3, 0, 7, 1, 0xDF, 0xFF, 2, 0x81, 97, 2, 0xFF] =
      .ok [.int 7, .int (-1), .str [97]] := by
  have hdecode := decode_inverts_encode [.uint7 7 (by decide), .int13 (-1) (by decide),
    .str6 [97] (by decide)] 3 (by decide +kernel)
  exact hdecode

end ValkeyRdb.Listpack
