import ValkeyRdb.Intset
import ValkeyRdb.Ziplist

/-!
# Ziplists and intsets as they are written

An entry of a ziplist starts with the length of the one in front of it, which readers skip,
as they do the tail offset and the element count of the header.
-/

namespace ValkeyRdb.Ziplist

/-- The length of the previous entry: one byte below 254, or 0xFE and four bytes. -/
inductive PrevlenForm where
  | short (n : Nat) (h : n < 254)
  | long (n : Nat) (h : n < 2 ^ 32)

def PrevlenForm.value : PrevlenForm → Nat
  | short n _ => n
  | long n _ => n

def PrevlenForm.bytes : PrevlenForm → Bytes
  | short n _ => [UInt8.ofNat n]
  | long n _ => 0xFE :: leBytes 4 n

inductive BodyForm where
  | int4 (n : Nat) (h : n ≤ 12)
  | int8 (i : Int) (h : FitsSigned 8 i)
  | int16 (i : Int) (h : FitsSigned 16 i)
  | int24 (i : Int) (h : FitsSigned 24 i)
  | int32 (i : Int) (h : FitsSigned 32 i)
  | int64 (i : Int) (h : FitsSigned 64 i)
  | str6 (s : Bytes) (h : s.length < 2 ^ 6)
  | str14 (s : Bytes) (h : s.length < 2 ^ 14)
  | str32 (s : Bytes) (h : s.length < 2 ^ 32)

namespace BodyForm

def value : BodyForm → CompactEntry
  | int4 n _ => .int n
  | int8 i _ => .int i
  | int16 i _ => .int i
  | int24 i _ => .int i
  | int32 i _ => .int i
  | int64 i _ => .int i
  | str6 s _ => .str s
  | str14 s _ => .str s
  | str32 s _ => .str s

def bytes : BodyForm → Bytes
  | int4 n _ => [UInt8.ofNat (0xF1 + n)]
  | int8 i _ => 0xFE :: leBytes 1 (unsigned 8 i)
  | int16 i _ => 0xC0 :: leBytes 2 (unsigned 16 i)
  | int24 i _ => 0xF0 :: leBytes 3 (unsigned 24 i)
  | int32 i _ => 0xD0 :: leBytes 4 (unsigned 32 i)
  | int64 i _ => 0xE0 :: leBytes 8 (unsigned 64 i)
  | str6 s _ => UInt8.ofNat s.length :: s
  | str14 s _ => UInt8.ofNat (0x40 + s.length / 256) :: UInt8.ofNat s.length :: s
  | str32 s _ => 0x80 :: (beBytes 4 s.length ++ s)

end BodyForm

structure EntryForm where
  prevlen : PrevlenForm
  body : BodyForm

def EntryForm.value (f : EntryForm) : CompactEntry := f.body.value

def EntryForm.bytes (f : EntryForm) : Bytes := f.prevlen.bytes ++ f.body.bytes

/-! ### Entries -/

theorem tag_prevlen : ∀ n < 254, UInt8.ofNat n ≠ zlEnd ∧ UInt8.ofNat n < 254 ∧
    (UInt8.ofNat n).toNat = n := by decide +kernel

theorem PrevlenForm.head (f : PrevlenForm) : ∃ b rest, f.bytes = b :: rest ∧ b ≠ zlEnd := by
  cases f with
  | short n h => exact ⟨_, _, rfl, (tag_prevlen n h).1⟩
  | long n h => exact ⟨_, _, rfl, by decide⟩

theorem decodePrevlen_form (f : PrevlenForm) (rest : Bytes) :
    decodePrevlen (f.bytes ++ rest) = .ok (f.bytes.length, f.value) := by
  cases f with
  | short n h =>
    obtain ⟨hend, hlt, hval⟩ := tag_prevlen n h
    change (if UInt8.ofNat n = zlEnd then _ else if UInt8.ofNat n < 254 then _ else _ :
      Res (Nat × Nat)) = _
    rw [if_neg hend, if_pos hlt, hval]
    rfl
  | long n h =>
    have hslice : slice (0xFE :: leBytes 4 n ++ rest) 1 5 = .ok (leBytes 4 n) := by
      have hmid := slice_append [0xFE] (leBytes 4 n) rest (n := 5) (by simp)
      simpa using hmid
    have hdec : decodePrevlen (0xFE :: leBytes 4 n ++ rest) = (do
        ensureLen (0xFE :: leBytes 4 n ++ rest) 5 "ziplist" "prevlen 5-byte"
        let len := leVal (← slice (0xFE :: leBytes 4 n ++ rest) 1 5)
        pure (5, len)) := rfl
    rw [ensureLen_eq (by simp), ok_bind, hslice, ok_bind, leVal_leBytes_of_lt h] at hdec
    exact hdec

theorem tag_int4 : ∀ n < 13, UInt8.ofNat (0xF1 + n) ≠ 0xC0 ∧ UInt8.ofNat (0xF1 + n) ≠ 0xD0 ∧
    UInt8.ofNat (0xF1 + n) ≠ 0xE0 ∧ UInt8.ofNat (0xF1 + n) ≠ 0xF0 ∧
    UInt8.ofNat (0xF1 + n) ≠ 0xFE ∧ 0xF1 ≤ UInt8.ofNat (0xF1 + n) ∧
    UInt8.ofNat (0xF1 + n) ≤ 0xFD ∧ (UInt8.ofNat (0xF1 + n) &&& 0x0F).toNat = n + 1 ∧
    UInt8.ofNat (0xF1 + n) >>> 6 = 3 := by decide +kernel

theorem tag_string : ∀ n < 64, UInt8.ofNat n >>> 6 = 0 ∧ (UInt8.ofNat n &&& 0x3F).toNat = n ∧
    UInt8.ofNat (0x40 + n) >>> 6 = 1 ∧ (UInt8.ofNat (0x40 + n) &&& 0x3F).toNat = n := by
  decide +kernel

theorem decodeBody_int8 (xs : Bytes) :
    decodeBody (0xFE :: xs) = intEntry (0xFE :: xs) 1 "ziplist" "8-bit int" := rfl

theorem decodeBody_int16 (xs : Bytes) :
    decodeBody (0xC0 :: xs) = intEntry (0xC0 :: xs) 2 "ziplist" "16-bit int" := rfl

theorem decodeBody_int24 (xs : Bytes) :
    decodeBody (0xF0 :: xs) = int24Entry (0xF0 :: xs) "ziplist" "24-bit int" := rfl

theorem decodeBody_int32 (xs : Bytes) :
    decodeBody (0xD0 :: xs) = intEntry (0xD0 :: xs) 4 "ziplist" "32-bit int" := rfl

theorem decodeBody_int64 (xs : Bytes) :
    decodeBody (0xE0 :: xs) = intEntry (0xE0 :: xs) 8 "ziplist" "64-bit int" := rfl

theorem decodeBody_str32 (xs : Bytes) : decodeBody (0x80 :: xs) = (do
    ensureLen (0x80 :: xs) 5 "ziplist" "32-bit string header"
    let len := beVal (← slice (0x80 :: xs) 1 5)
    stringEntry (0x80 :: xs) 5 len "ziplist" "32-bit string") := rfl

theorem decodeBody_form (f : BodyForm) (rest : Bytes) :
    decodeBody (f.bytes ++ rest) = .ok (f.value, f.bytes.length) := by
  cases f with
  | int4 n h =>
    obtain ⟨h1, h2, h3, h4, h5, hlo, hhi, hval, htop⟩ := tag_int4 n (by omega)
    have hindex : index (UInt8.ofNat (0xF1 + n) :: rest) 0 = .ok (UInt8.ofNat (0xF1 + n)) := rfl
    have hint : decodeIntEntry (UInt8.ofNat (0xF1 + n) :: rest) = .ok (.int n, 1) := by
      rw [decodeIntEntry, hindex, ok_bind, if_neg h1, if_neg h2, if_neg h3, if_neg h4, if_neg h5,
        if_pos ⟨hlo, hhi⟩, hval, sub64_eq (by omega), ok_bind, Nat.add_sub_cancel]
      rfl
    change decodeBody (UInt8.ofNat (0xF1 + n) :: rest) = .ok (.int n, 1)
    rw [decodeBody, hindex, ok_bind]
    dsimp only
    rw [htop]
    exact hint
  | int8 i h => exact (decodeBody_int8 _).trans (intEntry_form (w := 1) (by decide) h rest)
  | int16 i h => exact (decodeBody_int16 _).trans (intEntry_form (w := 2) (by decide) h rest)
  | int24 i h => exact (decodeBody_int24 _).trans (int24Entry_form h rest)
  | int32 i h => exact (decodeBody_int32 _).trans (intEntry_form (w := 4) (by decide) h rest)
  | int64 i h => exact (decodeBody_int64 _).trans (intEntry_form (w := 8) (by decide) h rest)
  | str6 s h =>
    obtain ⟨htop, hlen, -⟩ := tag_string s.length h
    change decodeBody (UInt8.ofNat s.length :: (s ++ rest)) = _
    have hindex : index (UInt8.ofNat s.length :: (s ++ rest)) 0 = .ok (UInt8.ofNat s.length) := rfl
    rw [decodeBody, hindex, ok_bind]
    dsimp only
    rw [htop, if_pos rfl, hlen]
    exact stringEntry_form [_] s rest _ _ (by simp; omega)
  | str14 s h =>
    obtain ⟨-, -, htop, hval⟩ := tag_string (s.length / 256) (by omega)
    have hlen : ((UInt8.ofNat (0x40 + s.length / 256) &&& 0x3F).toNat <<< 8 |||
        (UInt8.ofNat s.length).toNat) = s.length := by
      rw [hval, shift_or_byte, UInt8.toNat_ofNat']
      omega
    change decodeBody (UInt8.ofNat (0x40 + s.length / 256) :: UInt8.ofNat s.length ::
      (s ++ rest)) = _
    have h0 : index (UInt8.ofNat (0x40 + s.length / 256) :: UInt8.ofNat s.length :: (s ++ rest)) 0 =
        .ok (UInt8.ofNat (0x40 + s.length / 256)) := rfl
    have h1 : index (UInt8.ofNat (0x40 + s.length / 256) :: UInt8.ofNat s.length :: (s ++ rest)) 1 =
        .ok (UInt8.ofNat s.length) := rfl
    rw [decodeBody, h0, ok_bind]
    dsimp only
    rw [htop, if_neg (by decide), if_pos rfl, ensureLen_eq (by simp), ok_bind, h1, ok_bind, hlen]
    exact stringEntry_form [_, _] s rest _ _ (by simp; omega)
  | str32 s h =>
    have hlen : beVal (beBytes 4 s.length) = s.length := beVal_beBytes_of_lt h
    have hslice : slice (0x80 :: (beBytes 4 s.length ++ s) ++ rest) 1 5 =
        .ok (beBytes 4 s.length) := by
      have hmid := slice_append [0x80] (beBytes 4 s.length) (s ++ rest) (n := 5) (by simp)
      simpa using hmid
    have hlong : 5 ≤ (0x80 :: (beBytes 4 s.length ++ s) ++ rest).length := by simp
    have hdec := decodeBody_str32 (beBytes 4 s.length ++ s ++ rest)
    rw [← List.cons_append, ensureLen_eq hlong, ok_bind, hslice, ok_bind, hlen] at hdec
    refine hdec.trans ?_
    have hstr := stringEntry_form (0x80 :: beBytes 4 s.length) s rest "ziplist"
      "32-bit string" (by simp; omega)
    simpa [BodyForm.bytes, BodyForm.value] using hstr

theorem BodyForm.length_pos (f : BodyForm) : 0 < f.bytes.length := by
  cases f <;> simp [BodyForm.bytes]

theorem decodeEntry_form (f : EntryForm) (rest : Bytes)
    (h64 : (f.bytes ++ rest).length < 2 ^ 64) :
    decodeEntry (f.bytes ++ rest) = .ok (f.value, f.bytes.length) := by
  obtain ⟨b, tail, hhead, -⟩ := f.prevlen.head
  have hpos := f.body.length_pos
  have hprev := decodePrevlen_form f.prevlen (f.body.bytes ++ rest)
  have hslice := sliceFrom_append f.prevlen.bytes (f.body.bytes ++ rest)
  have hne : ¬(f.prevlen.bytes ++ (f.body.bytes ++ rest)).isEmpty = true := by simp [hhead]
  have hne' : ¬(f.body.bytes ++ rest).isEmpty = true := by
    simp [List.ne_nil_of_length_pos hpos]
  simp only [EntryForm.bytes, List.length_append] at h64
  rw [EntryForm.bytes, List.append_assoc, decodeEntry, if_neg hne, hprev, ok_bind]
  dsimp only
  rw [hslice, ok_bind, if_neg hne', decodeBody_form, ok_bind]
  dsimp only
  rw [checkedAdd_eq (by omega), ok_bind, List.length_append]
  rfl

/-! ### Ziplists -/

/-- A ziplist; its size must fit the four bytes of the header. -/
structure Form where
  entries : List EntryForm
  zltail : Nat
  zllen : Nat
  size_lt : zlHdrSize + (entries.flatMap EntryForm.bytes).length + 1 < 2 ^ 32

namespace Form

def value (f : Form) : List CompactEntry := f.entries.map EntryForm.value

def size (f : Form) : Nat := zlHdrSize + (f.entries.flatMap EntryForm.bytes).length + 1

def header (f : Form) : Bytes := leBytes 4 f.size ++ leBytes 4 f.zltail ++ leBytes 2 f.zllen

def bytes (f : Form) : Bytes := f.header ++ f.entries.flatMap EntryForm.bytes ++ [zlEnd]

theorem length_header (f : Form) : f.header.length = zlHdrSize := by simp [header, zlHdrSize]

theorem length_bytes (f : Form) : f.bytes.length = f.size := by
  rw [bytes, size, List.length_append, List.length_append, length_header, List.length_singleton]

end Form

theorem length_le_bytes (entries : List EntryForm) :
    entries.length ≤ (entries.flatMap EntryForm.bytes).length := by
  induction entries with
  | nil => exact le_rfl
  | cons entry entries ih =>
    have hpos := entry.body.length_pos
    simp only [List.flatMap_cons, List.length_cons, List.length_append, EntryForm.bytes] at ih ⊢
    omega

/-- The loop stops at the first end marker that stands where an entry could start. -/
theorem decodeFrom_entries (entries : List EntryForm) (pre tail : Bytes) (fuel : Nat)
    (h32 : (pre ++ entries.flatMap EntryForm.bytes ++ zlEnd :: tail).length < 2 ^ 32)
    (hfuel : entries.length < fuel) :
    decodeFrom (pre ++ entries.flatMap EntryForm.bytes ++ zlEnd :: tail) fuel pre.length =
      .ok (entries.map EntryForm.value) := by
  induction entries generalizing pre fuel with
  | nil =>
    obtain ⟨fuel, rfl⟩ : ∃ k, fuel = k + 1 := ⟨fuel - 1, by simp at hfuel; omega⟩
    have hend : index (pre ++ zlEnd :: tail) pre.length = .ok zlEnd :=
      index_append pre _ (k := 0) rfl
    rw [List.flatMap_nil, List.append_nil, decodeFrom, if_neg (by simp), hend, ok_bind, if_pos rfl]
    rfl
  | cons entry entries ih =>
    obtain ⟨fuel, rfl⟩ : ∃ k, fuel = k + 1 := ⟨fuel - 1, by simp at hfuel; omega⟩
    have hrest := ih (pre ++ entry.bytes) fuel (by simpa [List.append_assoc] using h32)
      (by simpa using hfuel)
    have hdata : pre ++ (entry :: entries).flatMap EntryForm.bytes ++ zlEnd :: tail =
        pre ++ (entry.bytes ++ (entries.flatMap EntryForm.bytes ++ zlEnd :: tail)) := by
      simp only [List.flatMap_cons, List.append_assoc]
    have hdata' : pre ++ entry.bytes ++ entries.flatMap EntryForm.bytes ++ zlEnd :: tail =
        pre ++ (entry.bytes ++ (entries.flatMap EntryForm.bytes ++ zlEnd :: tail)) := by
      simp only [List.append_assoc]
    rw [hdata] at h32 ⊢
    rw [hdata'] at hrest
    generalize entries.flatMap EntryForm.bytes ++ zlEnd :: tail = post at hrest h32
    obtain ⟨b, more, hhead, hb⟩ := entry.prevlen.head
    have hindex : index (pre ++ (entry.bytes ++ post)) pre.length = .ok b := by
      rw [EntryForm.bytes, hhead]
      exact index_append pre _ (k := 0) rfl
    have hlen := entry.body.length_pos
    simp only [List.length_append] at h32
    have hlt : ¬pre.length ≥ (pre ++ (entry.bytes ++ post)).length := by
      simp only [List.length_append, EntryForm.bytes]
      omega
    have hentry := decodeEntry_form entry post (by simp only [List.length_append]; omega)
    rw [List.length_append] at hrest
    rw [decodeFrom, if_neg hlt, hindex, ok_bind, if_neg hb, sliceFrom_append, ok_bind, hentry,
      ok_bind]
    dsimp only
    rw [if_neg (by omega), hrest, ok_bind]
    rfl

theorem decode_form (f : Form) : decode f.bytes = .ok f.value := by
  have hsize : f.bytes.length = f.size := f.length_bytes
  have h32 : f.size < 2 ^ 32 := f.size_lt
  have htotal : slice f.bytes 0 4 = .ok (leBytes 4 f.size) := by
    have h := slice_append [] (leBytes 4 f.size) (leBytes 4 f.zltail ++ leBytes 2 f.zllen ++
      f.entries.flatMap EntryForm.bytes ++ [zlEnd]) (n := 4) (by simp)
    simpa [Form.bytes, Form.header] using h
  have hnum : slice f.bytes 8 10 = .ok (leBytes 2 f.zllen) := by
    have h := slice_append (leBytes 4 f.size ++ leBytes 4 f.zltail) (leBytes 2 f.zllen)
      (f.entries.flatMap EntryForm.bytes ++ [zlEnd]) (n := 10) (by simp)
    simpa [Form.bytes, Form.header] using h
  have hentries := decodeFrom_entries f.entries f.header [] f.bytes.length
    (by rw [← Form.bytes, hsize]; exact h32) (by
      have hle := length_le_bytes f.entries
      rw [hsize, Form.size]
      omega)
  rw [← Form.bytes, f.length_header] at hentries
  rw [decode, if_neg (by rw [hsize, Form.size]; omega), htotal, ok_bind, leVal_leBytes_of_lt h32,
    if_neg (by rw [hsize]; simp), hnum, ok_bind]
  exact hentries

end ValkeyRdb.Ziplist

namespace ValkeyRdb.Intset

/-! ### Intsets -/

/-- The three widths of an element, in bytes. -/
inductive Width where
  | two
  | four
  | eight

def Width.size : Width → Nat
  | two => 2
  | four => 4
  | eight => 8

/-- An intset; all its elements have the width that its header states. -/
structure Form where
  width : Width
  elements : List Int
  fits : ∀ i ∈ elements, FitsSigned (8 * width.size) i

namespace Form

def value (f : Form) : List Bytes := f.elements.map intText

def elementBytes (width : Width) (i : Int) : Bytes :=
  leBytes width.size (unsigned (8 * width.size) i)

def bytes (f : Form) : Bytes :=
  leBytes 4 f.width.size ++ leBytes 4 f.elements.length ++
    f.elements.flatMap (elementBytes f.width)

end Form

theorem length_elementBytes (w : Width) (xs : List Int) :
    (xs.flatMap (Form.elementBytes w)).length = xs.length * w.size := by
  induction xs with
  | nil => simp
  | cons x xs ih =>
    rw [List.flatMap_cons, List.length_append, ih, Form.elementBytes, length_leBytes,
      List.length_cons, Nat.succ_mul, Nat.add_comm]

theorem Form.length_bytes (f : Form) :
    f.bytes.length = intsetHdrSize + f.elements.length * f.width.size := by
  rw [Form.bytes, List.length_append, length_elementBytes]
  simp [intsetHdrSize]

theorem Form.slice_encoding (f : Form) : slice f.bytes 0 4 = .ok (leBytes 4 f.width.size) := by
  have h := slice_append [] (leBytes 4 f.width.size) (leBytes 4 f.elements.length ++
    f.elements.flatMap (Form.elementBytes f.width)) (n := 4) (by simp)
  simpa [Form.bytes] using h

theorem Form.slice_length (f : Form) : slice f.bytes 4 8 = .ok (leBytes 4 f.elements.length) := by
  have h := slice_append (leBytes 4 f.width.size) (leBytes 4 f.elements.length)
    (f.elements.flatMap (Form.elementBytes f.width)) (n := 8) (by simp)
  simpa [Form.bytes] using h

theorem decodeElements_form (w : Width) (xs : List Int) (pre : Bytes)
    (hfits : ∀ i ∈ xs, FitsSigned (8 * w.size) i)
    (h64 : pre.length + xs.length * w.size < 2 ^ 64) :
    decodeElements (pre ++ xs.flatMap (Form.elementBytes w)) w.size xs.length pre.length =
      .ok (xs.map intText) := by
  induction xs generalizing pre with
  | nil => rfl
  | cons x xs ih =>
    have hw : 0 < w.size := by cases w <;> decide
    have hlen : (Form.elementBytes w x).length = w.size := by
      rw [Form.elementBytes, length_leBytes]
    rw [List.length_cons, Nat.succ_mul] at h64
    have hrest := ih (pre ++ Form.elementBytes w x)
      (fun i hi => hfits i (List.mem_cons_of_mem x hi))
      (by rw [List.length_append, hlen]; omega)
    rw [List.length_append, hlen, List.append_assoc] at hrest
    have hslice := slice_append pre (Form.elementBytes w x) (xs.flatMap (Form.elementBytes w))
      (n := pre.length + w.size) (by rw [hlen])
    have hlt : unsigned (8 * w.size) x < 256 ^ w.size := by
      have hpow : (256 : Nat) ^ w.size = 2 ^ (8 * w.size) := by rw [Nat.pow_mul]
      rw [hpow]
      exact unsigned_lt _ _
    have hval : signed (8 * w.size) (leVal (Form.elementBytes w x)) = x := by
      rw [Form.elementBytes, leVal_leBytes_of_lt hlt,
        signed_unsigned (by omega) (hfits x List.mem_cons_self)]
    rw [List.flatMap_cons, List.length_cons, decodeElements, add64_eq (by omega), ok_bind, hslice,
      ok_bind, hval]
    dsimp only
    rw [if_neg (by omega), hrest, ok_bind]
    rfl

theorem decode_form (f : Form) (h : f.elements.length ≤ maxIntsetElements) :
    decode f.bytes = .ok f.value := by
  have hcap : maxIntsetElements < 2 ^ 32 := by decide
  have hw : f.width.size = 2 ∨ f.width.size = 4 ∨ f.width.size = 8 := by
    cases f.width <;> simp [Width.size]
  have hw32 : f.width.size < 256 ^ 4 := by omega
  have hn32 : f.elements.length < 256 ^ 4 := by omega
  have hlen := f.length_bytes
  have hbound : f.elements.length * f.width.size ≤ maxIntsetElements * 8 :=
    Nat.mul_le_mul h (by omega)
  have hsmall : maxIntsetElements * 8 + 8 < 2 ^ 64 := by decide
  have helems := decodeElements_form f.width f.elements
    (leBytes 4 f.width.size ++ leBytes 4 f.elements.length) f.fits (by simp; omega)
  have hpre : (leBytes 4 f.width.size ++ leBytes 4 f.elements.length).length = intsetHdrSize := by
    simp [intsetHdrSize]
  rw [← Form.bytes, hpre] at helems
  rw [decode, if_neg (by omega), f.slice_encoding, ok_bind, f.slice_length, ok_bind,
    leVal_leBytes_of_lt hw32,
    leVal_leBytes_of_lt hn32]
  dsimp only
  rw [if_neg (by omega), if_neg (by rw [not_not]; exact hw),
    if_neg (by rw [intsetHdrSize]; omega), if_neg (by rw [hlen]; simp)]
  exact helems

theorem decode_form_error (f : Form) (h32 : f.elements.length < 2 ^ 32)
    (h : maxIntsetElements < f.elements.length) : ∃ e, decode f.bytes = .error e := by
  have hlen := f.length_bytes
  rw [decode, if_neg (by omega), f.slice_encoding, ok_bind, f.slice_length, ok_bind,
    leVal_leBytes_of_lt h32]
  dsimp only
  rw [if_pos (by omega)]
  exact ⟨_, rfl⟩

end ValkeyRdb.Intset
