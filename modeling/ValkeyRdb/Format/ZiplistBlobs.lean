import ValkeyRdb.Format.Ziplist

/-!
# Ziplist blobs

A writer puts in front of every entry the length of the one before; the decoder returns the
entries of such a blob. Of the blobs it accepts every byte in front of the end marker is
accounted for, but nothing behind it.
-/

namespace ValkeyRdb.Ziplist

/-! ### Written blobs -/

/-- The length of the previous entry (`zipStorePrevEntryLength`). -/
def prevlenBytes (n : Nat) : Bytes := if n < 254 then [UInt8.ofNat n] else 0xFE :: leBytes 4 n

/-- The entries one after the other; `prev` is the length of the entry in front of them. -/
def writeEntries (prev : Nat) : List BodyForm → Bytes
  | [] => []
  | body :: bodies =>
    let entry := prevlenBytes prev ++ body.bytes
    entry ++ writeEntries entry.length bodies

def writeZiplist (zltail zllen : Nat) (bodies : List BodyForm) : Bytes :=
  leBytes 4 (zlHdrSize + (writeEntries 0 bodies).length + 1) ++ leBytes 4 zltail ++
    leBytes 2 zllen ++ writeEntries 0 bodies ++ [zlEnd]

theorem prevlenBytes_form (n : Nat) : ∃ f : PrevlenForm, prevlenBytes n = f.bytes := by
  by_cases h : n < 254
  · exact ⟨.short n h, if_pos h⟩
  · have hlow : leBytes 4 (n % 256 ^ 4) = leBytes 4 n := by
      have hback := leBytes_leVal (leBytes 4 n)
      rwa [leVal_leBytes, length_leBytes] at hback
    refine ⟨.long (n % 256 ^ 4) (Nat.mod_lt _ (by decide)), ?_⟩
    rw [prevlenBytes, if_neg h, PrevlenForm.bytes, hlow]

theorem writeEntries_forms (prev : Nat) (bodies : List BodyForm) :
    ∃ entries : List EntryForm, writeEntries prev bodies = entries.flatMap EntryForm.bytes ∧
      entries.map EntryForm.value = bodies.map BodyForm.value := by
  induction bodies generalizing prev with
  | nil => exact ⟨[], rfl, rfl⟩
  | cons body bodies ih =>
    obtain ⟨f, hf⟩ := prevlenBytes_form prev
    obtain ⟨entries, hbytes, hvalue⟩ := ih (prevlenBytes prev ++ body.bytes).length
    refine ⟨⟨f, body⟩ :: entries, ?_, ?_⟩
    · rw [writeEntries, List.flatMap_cons, EntryForm.bytes, ← hbytes, ← hf]
    · simp only [List.map_cons, hvalue, EntryForm.value]

/-- Decoding a blob that was written gives back its entries. -/
theorem decode_writeZiplist (bodies : List BodyForm) (zltail zllen : Nat)
    (h : (writeZiplist zltail zllen bodies).length < 2 ^ 32) :
    decode (writeZiplist zltail zllen bodies) = .ok (bodies.map BodyForm.value) := by
  obtain ⟨entries, hbytes, hvalue⟩ := writeEntries_forms 0 bodies
  have hsize : zlHdrSize + (entries.flatMap EntryForm.bytes).length + 1 < 2 ^ 32 := by
    simp only [writeZiplist, hbytes, List.length_append, length_leBytes, List.length_singleton] at h
    rw [zlHdrSize]
    omega
  have hform := decode_form ⟨entries, zltail, zllen, hsize⟩
  rw [writeZiplist, hbytes, ← hvalue]
  exact hform

/-- A small and a large entry, so that both forms of the length in front occur. -/
def twoLengths : List BodyForm :=
  [.int4 12 (by decide), .str14 (List.replicate 300 0xFF) (by rw [List.length_replicate]; decide),
    .int24 (-1) (by decide)]

theorem decode_writeZiplist_twoLengths :
    (writeZiplist 7 3 twoLengths).length < 2 ^ 32 ∧
      decode (writeZiplist 7 3 twoLengths) = .ok (twoLengths.map BodyForm.value) :=
  ⟨by decide +kernel, decode_writeZiplist twoLengths 7 3 (by decide +kernel)⟩

/-! ### Fields of an accepted blob

A field that was read is the form of its value, whatever the buffer. -/

theorem stringEntry_parses (hdr xs : Bytes) (len : Nat) (format ctx : String) :
    Returns (stringEntry (hdr ++ xs) hdr.length len format ctx)
      (fun _ => ∃ s more, s.length = len ∧ xs = s ++ more) := by
  refine (checkedAdd_returns hdr.length len format ctx).bind fun total ht => ?_
  refine (ensureLen_returns (hdr ++ xs) total format ctx).bind fun _ hl => ?_
  rw [slice_eq ⟨by omega, hl⟩]
  rw [List.length_append] at hl
  refine ⟨xs.take len, xs.drop len, ?_, (List.take_append_drop len xs).symm⟩
  rw [List.length_take]
  omega

theorem intBytes_parses {w : Nat} (hw : 0 < w) {xs : Bytes} (h : w ≤ xs.length) :
    ∃ i more, FitsSigned (8 * w) i ∧ xs = leBytes w (unsigned (8 * w) i) ++ more := by
  have hlt : leVal (xs.take w) < 2 ^ (8 * w) := by
    have hval := leVal_take_lt w xs
    rwa [show (256 : Nat) ^ w = 2 ^ (8 * w) by rw [Nat.pow_mul]] at hval
  refine ⟨signed (8 * w) (leVal (xs.take w)), xs.drop w, signed_fits (by omega) _, ?_⟩
  rw [unsigned_signed hlt, leBytes_take h, List.take_append_drop]

def StartsBody (buf : Bytes) : Prop := ∃ f more, buf = BodyForm.bytes f ++ more

theorem intEntry_parses {w : Nat} (hw : 0 < w) {enc : UInt8} {xs : Bytes} {format ctx : String}
    (form : ∀ i, FitsSigned (8 * w) i → BodyForm)
    (hform : ∀ i h, (form i h).bytes = enc :: leBytes w (unsigned (8 * w) i)) :
    Returns (intEntry (enc :: xs) w format ctx) (fun _ => StartsBody (enc :: xs)) := by
  refine (ensureLen_returns (enc :: xs) (w + 1) format ctx).bind fun _ hl => ?_
  have hw_le : w ≤ xs.length := by simpa using hl
  obtain ⟨i, more, hi, hxs⟩ := intBytes_parses hw hw_le
  rw [slice_eq ⟨by omega, hl⟩]
  exact ⟨form i hi, more, by rw [hform, List.cons_append, ← hxs]⟩

theorem int24Entry_parses (xs : Bytes) (format ctx : String) :
    Returns (int24Entry (0xF0 :: xs) format ctx) (fun _ => StartsBody (0xF0 :: xs)) := by
  refine (ensureLen_returns (0xF0 :: xs) 4 format ctx).bind fun _ hl => ?_
  have h3_le : 3 ≤ xs.length := by simpa using hl
  obtain ⟨i, more, hi, hxs⟩ := intBytes_parses (by decide) h3_le
  rw [readI24Le_eq (by decide) (List.getElem?_eq_getElem (by omega))
    (List.getElem?_eq_getElem (by omega)) (List.getElem?_eq_getElem (by omega))]
  exact ⟨.int24 i hi, more, by rw [hxs]; rfl⟩

theorem enc_int4 : ∀ n < 256, 0xF1 ≤ UInt8.ofNat n → UInt8.ofNat n ≤ 0xFD →
    n - 0xF1 ≤ 12 ∧ 0xF1 + (n - 0xF1) = n ∧ 1 ≤ (UInt8.ofNat n &&& 0x0F).toNat := by
  decide +kernel

theorem decodeIntEntry_parses (enc : UInt8) (xs : Bytes) :
    Returns (decodeIntEntry (enc :: xs)) (fun _ => StartsBody (enc :: xs)) := by
  have hindex : index (enc :: xs) 0 = .ok enc := rfl
  rw [decodeIntEntry, hindex, ok_bind]
  refine ExceptMeets.ite (fun he => ?_) fun _ => ?_
  · exact intEntry_parses (w := 2) (by decide) .int16 fun i h => by rw [he]; rfl
  refine ExceptMeets.ite (fun he => ?_) fun _ => ?_
  · exact intEntry_parses (w := 4) (by decide) .int32 fun i h => by rw [he]; rfl
  refine ExceptMeets.ite (fun he => ?_) fun _ => ?_
  · exact intEntry_parses (w := 8) (by decide) .int64 fun i h => by rw [he]; rfl
  refine ExceptMeets.ite (fun he => ?_) fun _ => ?_
  · rw [he]
    exact int24Entry_parses xs _ _
  refine ExceptMeets.ite (fun he => ?_) fun _ => ?_
  · exact intEntry_parses (w := 1) (by decide) .int8 fun i h => by rw [he]; rfl
  refine ExceptMeets.ite (fun he => ?_) fun _ => returns_corrupt
  have himm := enc_int4 enc.toNat enc.toNat_lt
  rw [UInt8.ofNat_toNat] at himm
  obtain ⟨hle, hsum, hnibble⟩ := himm he.1 he.2
  rw [sub64_eq hnibble, ok_bind]
  refine ⟨.int4 (enc.toNat - 0xF1) hle, xs, ?_⟩
  rw [BodyForm.bytes, hsum, UInt8.ofNat_toNat]
  rfl

theorem enc_string : ∀ n < 256,
    (UInt8.ofNat n >>> 6 = 0 → n < 64 ∧ (UInt8.ofNat n &&& 0x3F).toNat = n) ∧
    (UInt8.ofNat n >>> 6 = 1 → 64 ≤ n ∧ n < 128 ∧ (UInt8.ofNat n &&& 0x3F).toNat = n - 64) := by
  decide +kernel

theorem str14_parses {enc : UInt8} (hlo : 64 ≤ enc.toNat) (hhi : enc.toNat < 128) (b1 : UInt8)
    {s : Bytes} (hs : s.length = 256 * (enc.toNat - 64) + b1.toNat) :
    ∃ h, (BodyForm.str14 s h).bytes = enc :: b1 :: s := by
  have hb := b1.toNat_lt
  have hhigh : 0x40 + s.length / 256 = enc.toNat := by omega
  have hlow : UInt8.ofNat s.length = b1 := by
    apply UInt8.toNat_inj.mp
    rw [UInt8.toNat_ofNat']
    omega
  refine ⟨by omega, ?_⟩
  rw [BodyForm.bytes, hhigh, hlow, UInt8.ofNat_toNat]

theorem str32_parses {xs s more : Bytes} (h : 4 ≤ xs.length) (hs : s.length = beVal (xs.take 4))
    (hxs : xs.drop 4 = s ++ more) : StartsBody (0x80 :: xs) := by
  have hlt := beVal_take_lt 4 xs
  refine ⟨.str32 s (by omega), more, ?_⟩
  rw [BodyForm.bytes, hs, beBytes_take h, List.cons_append, List.append_assoc, ← hxs,
    List.take_append_drop]

theorem decodeBody_parses (enc : UInt8) (xs : Bytes) :
    Returns (decodeBody (enc :: xs)) (fun _ => StartsBody (enc :: xs)) := by
  have hindex : index (enc :: xs) 0 = .ok enc := rfl
  have hstring := enc_string enc.toNat enc.toNat_lt
  rw [UInt8.ofNat_toNat] at hstring
  rw [decodeBody, hindex, ok_bind]
  refine ExceptMeets.ite (fun h0 => ?_) fun h0 => ?_
  · obtain ⟨hlt, hlen⟩ := hstring.1 h0
    refine (stringEntry_parses [enc] xs _ _ _).mono fun _ hp => ?_
    obtain ⟨s, more, hs, hxs⟩ := hp
    rw [hlen] at hs
    refine ⟨.str6 s (by omega), more, ?_⟩
    rw [BodyForm.bytes, hs, UInt8.ofNat_toNat, hxs]
    rfl
  refine ExceptMeets.ite (fun h1 => ?_) fun h1 => ?_
  · obtain ⟨hlo, hhi, hlen⟩ := hstring.2 h1
    refine (ensureLen_returns (enc :: xs) 2 _ _).bind fun _ hl => ?_
    cases xs with
    | nil => simp at hl
    | cons b1 xs =>
      have hindex1 : index (enc :: b1 :: xs) 1 = .ok b1 := rfl
      rw [hindex1, ok_bind]
      refine (stringEntry_parses [enc, b1] xs _ _ _).mono fun _ hp => ?_
      obtain ⟨s, more, hs, hxs⟩ := hp
      rw [hlen, shift_or_byte] at hs
      obtain ⟨h, hbytes⟩ := str14_parses hlo hhi b1 hs
      exact ⟨.str14 s h, more, by rw [hbytes, hxs]; rfl⟩
  refine ExceptMeets.ite (fun h2 => ?_) fun h2 => ?_
  · refine ExceptMeets.ite (fun _ => returns_corrupt) fun h80 => ?_
    refine (ensureLen_returns (enc :: xs) 5 _ _).bind fun _ hl => ?_
    have h4 : 4 ≤ xs.length := by simpa using hl
    have hslice : slice (enc :: xs) 1 5 = .ok (xs.take 4) := by
      rw [slice_eq ⟨by decide, hl⟩]
      rfl
    rw [hslice, ok_bind]
    have hstr := stringEntry_parses (enc :: xs.take 4) (xs.drop 4) (beVal (xs.take 4)) "ziplist"
      "32-bit string"
    rw [List.cons_append, List.take_append_drop, List.length_cons, List.length_take_of_le h4] at hstr
    refine hstr.mono fun _ hp => ?_
    obtain ⟨s, more, hs, hxs⟩ := hp
    rw [not_not.mp h80]
    exact str32_parses h4 hs hxs
  refine ExceptMeets.ite (fun _ => decodeIntEntry_parses enc xs) fun h3 => ?_
  have hpos : 0 < (enc :: xs).length := Nat.succ_pos xs.length
  have hreturns := decodeBody_returns hpos
  rw [decodeBody, hindex, ok_bind] at hreturns
  dsimp only at hreturns
  rw [if_neg h0, if_neg h1, if_neg h2, if_neg h3] at hreturns
  exact hreturns.elim

theorem decodePrevlen_parses (buf : Bytes) :
    Returns (decodePrevlen buf) (fun r => ∃ (f : PrevlenForm) (more : Bytes),
      buf = f.bytes ++ more ∧ r.1 = f.bytes.length) := by
  cases buf with
  | nil => exact returns_corrupt
  | cons b xs =>
    have hindex : index (b :: xs) 0 = .ok b := rfl
    rw [decodePrevlen, if_neg (by simp), hindex, ok_bind]
    refine ExceptMeets.ite (fun _ => returns_corrupt) fun hend => ?_
    refine ExceptMeets.ite (fun hshort => ?_) fun hlong => ?_
    · have hlt : b.toNat < 254 := UInt8.lt_iff_toNat_lt.mp hshort
      exact ⟨.short b.toNat hlt, xs, by rw [PrevlenForm.bytes, UInt8.ofNat_toNat]; rfl, rfl⟩
    · refine (ensureLen_returns (b :: xs) 5 _ _).bind fun _ hl => ?_
      rw [slice_eq ⟨by decide, hl⟩, ok_bind]
      have hfe : ∀ n < 256, UInt8.ofNat n ≠ zlEnd → ¬UInt8.ofNat n < 254 → UInt8.ofNat n = 0xFE := by
        decide +kernel
      have hb := hfe b.toNat b.toNat_lt
      rw [UInt8.ofNat_toNat] at hb
      have h4 : 4 ≤ xs.length := by simpa using hl
      have hlt := leVal_take_lt 4 xs
      refine ⟨.long (leVal (xs.take 4)) (by omega), xs.drop 4, ?_, by simp [PrevlenForm.bytes]⟩
      rw [PrevlenForm.bytes, leBytes_take h4, List.cons_append, List.take_append_drop, hb hend hlong]

theorem decodeEntry_parses (buf : Bytes) :
    Returns (decodeEntry buf) (fun _ => ∃ (f : EntryForm) (more : Bytes), buf = f.bytes ++ more) := by
  refine ExceptMeets.ite (fun _ => returns_corrupt) fun _ => ?_
  refine (decodePrevlen_parses buf).bind fun r hr => ?_
  obtain ⟨prevlenSize, prevlen⟩ := r
  obtain ⟨f, rest, rfl, hsize⟩ := hr
  dsimp only at hsize ⊢
  rw [hsize, sliceFrom_append, ok_bind]
  cases rest with
  | nil => exact returns_corrupt
  | cons enc xs =>
    rw [if_neg (by simp)]
    refine (decodeBody_parses enc xs).bind fun r hr => ?_
    obtain ⟨body, more, hbody⟩ := hr
    refine (checkedAdd_returns _ _ _ _).bind fun _ _ => ?_
    exact ⟨⟨f, body⟩, more, by rw [EntryForm.bytes, List.append_assoc, ← hbody]⟩

theorem decodeFrom_parses {pre rest : Bytes} {fuel : Nat} {entries : List CompactEntry}
    (h64 : (pre ++ rest).length < 2 ^ 64)
    (h : decodeFrom (pre ++ rest) fuel pre.length = .ok entries) :
    ∃ (forms : List EntryForm) (tail : Bytes),
      rest = forms.flatMap EntryForm.bytes ++ zlEnd :: tail ∧
        forms.map EntryForm.value = entries := by
  induction fuel generalizing pre rest entries with
  | zero => cases h
  | succ fuel ih =>
    rw [decodeFrom] at h
    cases rest with
    | nil =>
      rw [if_pos (by simp)] at h
      cases h
    | cons b xs =>
      have hindex : index (pre ++ b :: xs) pre.length = .ok b := index_append pre _ (k := 0) rfl
      rw [if_neg (by simp), hindex, ok_bind] at h
      by_cases hend : b = zlEnd
      · rw [if_pos hend] at h
        cases h
        exact ⟨[], xs, by rw [hend]; rfl, rfl⟩
      rw [if_neg hend, sliceFrom_append, ok_bind] at h
      have hparse := decodeEntry_parses (b :: xs)
      cases hentry : decodeEntry (b :: xs) with
      | error e =>
        rw [hentry] at h
        cases h
      | ok r =>
        rw [hentry] at hparse
        obtain ⟨f, more, hbuf⟩ := hparse
        rw [hbuf] at h64 h ⊢
        have hf := decodeEntry_form f more (by simp only [List.length_append] at h64 ⊢; omega)
        rw [hf, ok_bind] at h
        dsimp only at h
        simp only [List.length_append] at h64
        rw [if_neg (by omega)] at h
        cases hrest : decodeFrom (pre ++ (f.bytes ++ more)) fuel (pre.length + f.bytes.length) with
        | error e =>
          rw [hrest] at h
          cases h
        | ok later =>
          rw [hrest] at h
          cases h
          rw [← List.append_assoc, ← List.length_append] at hrest
          obtain ⟨forms, tail, hmore, hvalue⟩ := ih (by simp only [List.length_append]; omega) hrest
          refine ⟨f :: forms, tail, ?_, ?_⟩
          · rw [hmore, List.flatMap_cons, List.append_assoc]
          · rw [List.map_cons, hvalue]

/-- The end marker at which the decoder stops has one place only. -/
theorem entries_unique {forms forms' : List EntryForm} {tail tail' : Bytes}
    (h64 : (forms.flatMap EntryForm.bytes ++ zlEnd :: tail).length < 2 ^ 64)
    (h : forms.flatMap EntryForm.bytes ++ zlEnd :: tail =
      forms'.flatMap EntryForm.bytes ++ zlEnd :: tail') : tail = tail' := by
  induction forms generalizing forms' with
  | nil =>
    cases forms' with
    | nil => exact (List.cons.inj h).2
    | cons f' forms' =>
      obtain ⟨b, more, hhead, hb⟩ := f'.prevlen.head
      rw [List.flatMap_cons, EntryForm.bytes, hhead] at h
      exact absurd (List.cons.inj h).1.symm hb
  | cons f forms ih =>
    cases forms' with
    | nil =>
      obtain ⟨b, more, hhead, hb⟩ := f.prevlen.head
      rw [List.flatMap_cons, EntryForm.bytes, hhead] at h
      exact absurd (List.cons.inj h).1 hb
    | cons f' forms' =>
      simp only [List.flatMap_cons, List.append_assoc] at h h64
      have hf := decodeEntry_form f _ h64
      have hf' := decodeEntry_form f' _ (h ▸ h64)
      rw [h, hf'] at hf
      have hlen : f'.bytes.length = f.bytes.length := congrArg Prod.snd (Except.ok.inj hf)
      obtain ⟨-, hrest⟩ := List.append_inj h hlen.symm
      exact ih (by simp only [List.length_append] at h64 ⊢; omega) hrest

/-! ### Bytes behind the end marker -/

/-- The blob is a header, the encodings of the entries and one end marker. -/
def ConsumedWhole (data : Bytes) (entries : List CompactEntry) : Prop :=
  ∃ (header : Bytes) (forms : List EntryForm), header.length = zlHdrSize ∧
    data = header ++ forms.flatMap EntryForm.bytes ++ [zlEnd] ∧
    forms.map EntryForm.value = entries

/-- The size in the header is that of the blob, which goes on behind the first end marker
that stands where an entry could start. -/
def ContinuesPastEnd (data : Bytes) : Prop :=
  ∃ (header : Bytes) (forms : List EntryForm) (tail : Bytes), header.length = zlHdrSize ∧
    leVal (header.take 4) = data.length ∧ tail ≠ [] ∧
    data = header ++ forms.flatMap EntryForm.bytes ++ zlEnd :: tail

theorem decode_ok {data : Bytes} {entries : List CompactEntry} (h : decode data = .ok entries) :
    leVal (data.take 4) = data.length ∧ zlHdrSize < data.length ∧
      decodeFrom data data.length zlHdrSize = .ok entries := by
  rw [decode] at h
  by_cases hshort : data.length < zlHdrSize + 1
  · rw [if_pos hshort] at h
    cases h
  rw [zlHdrSize] at hshort
  rw [if_neg (by rw [zlHdrSize]; omega), slice_eq ⟨by omega, by omega⟩, ok_bind] at h
  dsimp only at h
  rw [List.drop_zero] at h
  by_cases hsize : leVal (data.take 4) ≠ data.length
  · rw [if_pos hsize] at h
    cases h
  · rw [if_neg hsize, slice_eq ⟨by omega, by omega⟩, ok_bind] at h
    exact ⟨not_not.mp hsize, by rw [zlHdrSize]; omega, h⟩

theorem decode_parses {data : Bytes} {entries : List CompactEntry} (h : decode data = .ok entries) :
    ∃ (header : Bytes) (forms : List EntryForm) (tail : Bytes), header.length = zlHdrSize ∧
      leVal (header.take 4) = data.length ∧
      data = header ++ forms.flatMap EntryForm.bytes ++ zlEnd :: tail ∧
      forms.map EntryForm.value = entries := by
  obtain ⟨hsize, hlong, hfrom⟩ := decode_ok h
  have h32 := leVal_take_lt 4 data
  have hhdr : (data.take zlHdrSize).length = zlHdrSize := by
    rw [List.length_take]
    omega
  have hsplit := List.take_append_drop zlHdrSize data
  have hloop : decodeFrom (data.take zlHdrSize ++ data.drop zlHdrSize) data.length
      (data.take zlHdrSize).length = .ok entries := by rw [hsplit, hhdr, hfrom]
  obtain ⟨forms, tail, hrest, hvalue⟩ := decodeFrom_parses (by rw [hsplit]; omega) hloop
  refine ⟨data.take zlHdrSize, forms, tail, hhdr, ?_, ?_, hvalue⟩
  · rw [List.take_take]
    exact hsize
  · rw [List.append_assoc, ← hrest, hsplit]

theorem decode_stops {header : Bytes} {forms : List EntryForm} {tail : Bytes}
    (hhdr : header.length = zlHdrSize)
    (hsize : leVal (header.take 4) =
      (header ++ forms.flatMap EntryForm.bytes ++ zlEnd :: tail).length) :
    decode (header ++ forms.flatMap EntryForm.bytes ++ zlEnd :: tail) =
      .ok (forms.map EntryForm.value) := by
  have h32 := leVal_take_lt 4 header
  rw [hsize] at h32
  have hcount := length_le_bytes forms
  have hloop := decodeFrom_entries forms header tail
    (header ++ forms.flatMap EntryForm.bytes ++ zlEnd :: tail).length h32
    (by simp only [List.length_append, List.length_cons]; omega)
  have htake : (header ++ forms.flatMap EntryForm.bytes ++ zlEnd :: tail).take 4 = header.take 4 := by
    rw [List.append_assoc, List.take_append_of_le_length (by rw [hhdr]; decide)]
  have hlong : zlHdrSize + 1 ≤ (header ++ forms.flatMap EntryForm.bytes ++ zlEnd :: tail).length := by
    simp only [List.length_append, List.length_cons]
    omega
  generalize header ++ forms.flatMap EntryForm.bytes ++ zlEnd :: tail = data at *
  rw [zlHdrSize] at hlong
  rw [hhdr] at hloop
  rw [decode, if_neg (by rw [zlHdrSize]; omega), slice_eq ⟨by omega, by omega⟩, ok_bind]
  dsimp only
  rw [List.drop_zero, htake, if_neg (not_not.mpr hsize), slice_eq ⟨by omega, by omega⟩, ok_bind]
  exact hloop

/-- The decoder takes a blob to its last byte exactly when nothing stands behind the first
end marker at the place of an entry. -/
theorem decode_consumes_iff (data : Bytes) :
    (∀ entries, decode data = .ok entries → ConsumedWhole data entries) ↔
      ¬ContinuesPastEnd data := by
  constructor
  · rintro hall ⟨header, forms, tail, hhdr, hsize, htail, rfl⟩
    obtain ⟨header', forms', hhdr', hdata, -⟩ := hall _ (decode_stops hhdr hsize)
    have h32 := leVal_take_lt 4 header
    rw [hsize, List.append_assoc] at h32
    rw [List.append_assoc, List.append_assoc] at hdata
    obtain ⟨-, hrest⟩ := List.append_inj hdata (hhdr.trans hhdr'.symm)
    exact htail (entries_unique (by simp only [List.length_append] at h32 ⊢; omega) hrest)
  · intro hnot entries h
    obtain ⟨header, forms, tail, hhdr, hsize, hdata, hvalue⟩ := decode_parses h
    refine ⟨header, forms, hhdr, ?_, hvalue⟩
    by_contra hne
    refine hnot ⟨header, forms, tail, hhdr, hsize, ?_, hdata⟩
    rintro rfl
    exact hne hdata

/-- An end marker right behind the header, and one more byte. -/
theorem decode_drops_tail :
    decode [12, 0, 0, 0, 10, 0, 0, 0, 0, 0, 0xFF, 7] = .ok [] ∧
      ¬ConsumedWhole [12, 0, 0, 0, 10, 0, 0, 0, 0, 0, 0xFF, 7] [] := by
  refine ⟨by decide +kernel, ?_⟩
  rintro ⟨header, forms, -, hdata, -⟩
  have hlast := congrArg List.getLast? hdata
  simp at hlast
  exact absurd hlast (by decide)

end ValkeyRdb.Ziplist
