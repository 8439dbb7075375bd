import ValkeyRdb.Format.Lzf
import ValkeyRdb.Lib.Encodings
import ValkeyRdb.Reader.Primitives

/-!
# Lengths and strings as they are written

A length has four forms, a string five. A form holds what a writer chooses; its value is
what a reader must return.
-/

namespace ValkeyRdb

open ReadAction (Decodes DecodesWhen FailsWith lift readExact)

/-! ### Lengths -/

/-- The forms of a length (reader.rs:236-239). -/
inductive LenForm where
  | six (n : Nat) (h : n < 2 ^ 6)
  | fourteen (n : Nat) (h : n < 2 ^ 14)
  | thirtyTwo (n : Nat) (h : n < 2 ^ 32)
  | sixtyFour (n : Nat) (h : n < 2 ^ 64)

namespace LenForm

def value : LenForm → Nat
  | six n _ => n
  | fourteen n _ => n
  | thirtyTwo n _ => n
  | sixtyFour n _ => n

def bytes : LenForm → Bytes
  | six n _ => [UInt8.ofNat n]
  | fourteen n _ => [UInt8.ofNat (64 + n / 256), UInt8.ofNat n]
  | thirtyTwo n _ => rdb32bitlen :: beBytes 4 n
  | sixtyFour n _ => rdb64bitlen :: beBytes 8 n

def zero : LenForm := .six 0 (by decide)
def one : LenForm := .six 1 (by decide)
def four : LenForm := .six 4 (by decide)

theorem zero_value : zero.value = 0 := rfl
theorem one_value : one.value = 1 := rfl
theorem four_value : four.value = 4 := rfl

theorem bytes_ne_nil (f : LenForm) : f.bytes ≠ [] := by
  cases f <;> simp [bytes]

end LenForm

theorem readU8_decodes (b : UInt8) : Decodes readU8 [b] b := fun _ => ⟨rfl, rfl⟩

theorem byte_split : ∀ n < 64, (UInt8.ofNat n &&& 0xC0) >>> 6 = 0 ∧
    (UInt8.ofNat n &&& 0x3F).toNat = n ∧ (UInt8.ofNat (64 + n) &&& 0xC0) >>> 6 = 1 ∧
    (UInt8.ofNat (64 + n) &&& 0x3F).toNat = n ∧
    (UInt8.ofNat (192 + n) &&& 0xC0) >>> 6 = 3 ∧
    (UInt8.ofNat (192 + n) &&& 0x3F).toNat = n := by decide +kernel

theorem LenForm.decodes (f : LenForm) : Decodes readLength f.bytes (.len f.value) := by
  cases f with
  | six n h =>
    obtain ⟨htop, hlow, -⟩ := byte_split n h
    refine (readU8_decodes (UInt8.ofNat n)).bind_pure ?_
    dsimp only
    rw [if_pos htop, hlow]
    exact Decodes.pure _
  | fourteen n h =>
    obtain ⟨-, -, htop, hlow, -⟩ := byte_split (n / 256) (by omega)
    refine (readU8_decodes (UInt8.ofNat (64 + n / 256))).bind (c := [UInt8.ofNat n]) ?_
    dsimp only
    rw [if_neg (by rw [htop]; decide), if_pos htop, hlow]
    refine (readU8_decodes (UInt8.ofNat n)).bind_pure ?_
    have hval : ((n / 256) <<< 8) ||| (UInt8.ofNat n).toNat = n := by
      rw [shift_or_byte, UInt8.toNat_ofNat']
      omega
    rw [hval]
    exact Decodes.pure _
  | thirtyTwo n h =>
    refine (readU8_decodes rdb32bitlen).bind (c := beBytes 4 n) ?_
    have hbuf : Decodes (readExact 4 : ReadM Bytes) (beBytes 4 n) (beBytes 4 n) :=
      ReadAction.decodes_readExact_of_length (length_beBytes 4 n)
    refine hbuf.bind_pure ?_
    rw [beVal_beBytes_of_lt h]
    exact Decodes.pure _
  | sixtyFour n h =>
    refine (readU8_decodes rdb64bitlen).bind (c := beBytes 8 n) ?_
    have hbuf : Decodes (readExact 8 : ReadM Bytes) (beBytes 8 n) (beBytes 8 n) :=
      ReadAction.decodes_readExact_of_length (length_beBytes 8 n)
    refine hbuf.bind_pure ?_
    rw [beVal_beBytes_of_lt h]
    exact Decodes.pure _

theorem readLength_special {e : Nat} (h : e < 64) :
    Decodes readLength [UInt8.ofNat (192 + e)] (.special (UInt8.ofNat (192 + e) &&& 0x3F)) := by
  obtain ⟨-, -, -, -, htop, -⟩ := byte_split e h
  refine (readU8_decodes (UInt8.ofNat (192 + e))).bind_pure ?_
  dsimp only
  rw [if_neg (by rw [htop]; decide), if_neg (by rw [htop]; decide), if_neg (by rw [htop]; decide),
    if_pos htop]
  exact Decodes.pure _

theorem LenForm.decodesValue (f : LenForm) : Decodes readLengthValue f.bytes f.value :=
  f.decodes.bind_pure (Decodes.pure f.value)

theorem lenToUsize_when (n : Nat) (ctx : String) :
    DecodesWhen (n ≤ maxAllocBytes) (lift (lenToUsize n ctx) : ReadM Nat) [] n :=
  DecodesWhen.lift (fun h => if_neg (by omega)) fun h => ⟨_, if_pos (by omega)⟩

theorem LenForm.decodesCount (f : LenForm) (ctx : String) :
    DecodesWhen (f.value ≤ maxAllocBytes) (readCount ctx) f.bytes f.value := by
  have h := f.decodesValue.bind_when (f := fun n => lift (lenToUsize n ctx))
    (lenToUsize_when f.value ctx)
  rwa [List.append_nil] at h

/-! ### Strings -/

/-- The forms of a string (reader.rs:296-299). -/
inductive StringForm where
  | raw (len : LenForm) (s : Bytes) (h : len.value = s.length)
  | int8 (i : Int) (h : FitsSigned 8 i)
  | int16 (i : Int) (h : FitsSigned 16 i)
  | int32 (i : Int) (h : FitsSigned 32 i)
  | lzf (compressedLen uncompressedLen : LenForm) (data : Lzf.Form)
      (hc : compressedLen.value = data.bytes.length)
      (hu : uncompressedLen.value = data.value.length)

namespace StringForm

def value : StringForm → Bytes
  | raw _ s _ => s
  | int8 i _ => intText i
  | int16 i _ => intText i
  | int32 i _ => intText i
  | lzf _ _ data _ _ => data.value

def bytes : StringForm → Bytes
  | raw len s _ => len.bytes ++ s
  | int8 i _ => 0xC0 :: leBytes 1 (unsigned 8 i)
  | int16 i _ => 0xC1 :: leBytes 2 (unsigned 16 i)
  | int32 i _ => 0xC2 :: leBytes 4 (unsigned 32 i)
  | lzf compressedLen uncompressedLen data _ _ =>
    0xC3 :: (compressedLen.bytes ++ uncompressedLen.bytes ++ data.bytes)

/-- The lengths that the form stores are within the cap on an allocation. -/
def Fits : StringForm → Prop
  | raw _ s _ => s.length ≤ maxAllocBytes
  | int8 _ _ => True
  | int16 _ _ => True
  | int32 _ _ => True
  | lzf _ _ data _ _ => data.bytes.length ≤ maxAllocBytes ∧ data.value.length ≤ maxAllocBytes

end StringForm

theorem readIntString_decodes {w : Nat} {i : Int} (hw : 0 < w) (h : FitsSigned (8 * w) i) :
    Decodes (readIntString w) (leBytes w (unsigned (8 * w) i)) (intText i) := by
  have hlt : unsigned (8 * w) i < 256 ^ w := by
    have hpow : (256 : Nat) ^ w = 2 ^ (8 * w) := by
      rw [Nat.pow_mul]
    rw [hpow]
    exact unsigned_lt _ _
  have hbuf : Decodes (readExact w : ReadM Bytes) (leBytes w (unsigned (8 * w) i)) _ :=
    ReadAction.decodes_readExact_of_length (length_leBytes _ _)
  refine hbuf.bind_pure ?_
  rw [leVal_leBytes_of_lt hlt, signed_unsigned (by omega) h]
  exact Decodes.pure _

theorem readLzfString_when {cf uf : LenForm} {data : Lzf.Form}
    (hc : cf.value = data.bytes.length) (hu : uf.value = data.value.length) :
    DecodesWhen (data.bytes.length ≤ maxAllocBytes ∧ data.value.length ≤ maxAllocBytes)
      readLzfString (cf.bytes ++ uf.bytes ++ data.bytes) data.value := by
  have h63 : maxAllocBytes < 2 ^ 63 := by decide
  have hclen := cf.decodesCount "LZF compressed length"
  have hulen := uf.decodesCount "LZF uncompressed length"
  rw [hc] at hclen
  rw [hu] at hulen
  rw [List.append_assoc]
  refine ⟨fun h => ?_, fun h => ?_⟩
  · have hdata : Decodes (readExactVec data.bytes.length) data.bytes data.bytes :=
      ReadAction.decodes_readExact data.bytes
    have hdec := Lzf.decompress_form data (by omega) (by omega)
    exact (hclen.decodes h.1).bind ((hulen.decodes h.2).bind (hdata.bind_pure (Decodes.lift hdec)))
  · by_cases hcfit : data.bytes.length ≤ maxAllocBytes
    · obtain ⟨e, he⟩ := hulen.fails fun hv => h ⟨hcfit, hv⟩
      exact ⟨e, (hclen.decodes hcfit).bind_fails (he.bind.append _)⟩
    · obtain ⟨e, he⟩ := hclen.fails hcfit
      exact ⟨e, he.bind.append _⟩

/-- A string is read back, whatever its form, if the lengths it stores are within the
cap. -/
theorem StringForm.decodes (f : StringForm) : DecodesWhen f.Fits readString f.bytes f.value := by
  cases f with
  | raw len s h =>
    have hlen := len.decodes
    rw [h] at hlen
    have hs : Decodes (readExactVec s.length) s s := ReadAction.decodes_readExact s
    exact hlen.bind_when ((lenToUsize_when s.length "string").bind_decodes hs)
  | int8 i h =>
    exact ((readLength_special (e := 0) (by decide)).bind
      (readIntString_decodes (w := 1) (by decide) h)).when
  | int16 i h =>
    exact ((readLength_special (e := 1) (by decide)).bind
      (readIntString_decodes (w := 2) (by decide) h)).when
  | int32 i h =>
    exact ((readLength_special (e := 2) (by decide)).bind
      (readIntString_decodes (w := 4) (by decide) h)).when
  | lzf cf uf data hc hu =>
    exact (readLength_special (e := 3) (by decide)).bind_when (readLzfString_when hc hu)

theorem StringForm.bytes_ne_nil (f : StringForm) : f.bytes ≠ [] := by
  cases f with
  | raw len s h => simp [StringForm.bytes, len.bytes_ne_nil]
  | int8 i h => simp [StringForm.bytes]
  | int16 i h => simp [StringForm.bytes]
  | int32 i h => simp [StringForm.bytes]
  | lzf cf uf data hc hu => simp [StringForm.bytes]

/-! ### Counted lists -/

/-- Items behind their number. -/
structure Counted (ι : Type) where
  count : LenForm
  items : List ι
  count_eq : count.value = items.length

section Counted

variable {ι α β : Type}

def Counted.bytes (c : Counted ι) (item : ι → Bytes) : Bytes :=
  c.count.bytes ++ c.items.flatMap item

/-- Number and items are within their caps. -/
def Counted.Fits (c : Counted ι) (fits : ι → Prop) : Prop :=
  c.items.length ≤ maxAllocBytes ∧ ∀ t ∈ c.items, fits t

theorem Counted.bind (c : Counted ι) {item : ι → Bytes} {fits : ι → Prop} {value : ι → α}
    {p : ReadM α} {k : List α → ReadM β} {c' : Prop} {b' : Bytes} {y : β} (ctx : String)
    (h : ∀ t ∈ c.items, DecodesWhen (fits t) p (item t) (value t))
    (hk : DecodesWhen c' (k (c.items.map value)) b' y) :
    DecodesWhen (c.Fits fits ∧ c')
      (do let n ← readCount ctx
          let as ← ReadAction.replicate n p
          k as) (c.bytes item ++ b') y := by
  have hcount := c.count.decodesCount ctx
  rw [c.count_eq] at hcount
  have hitems := (DecodesWhen.replicate h).bind hk
  rw [Counted.bytes, List.append_assoc]
  exact (hcount.bind (f := fun n => ReadAction.replicate n p >>= k) hitems).congr and_assoc

theorem Counted.map (c : Counted ι) {item : ι → Bytes} {fits : ι → Prop} {value : ι → α}
    {p : ReadM α} (ctx : String) (h : ∀ t ∈ c.items, DecodesWhen (fits t) p (item t) (value t))
    (g : List α → β) :
    DecodesWhen (c.Fits fits)
      (do let n ← readCount ctx
          let as ← ReadAction.replicate n p
          pure (g as)) (c.bytes item) (g (c.items.map value)) := by
  have hpure : DecodesWhen True (pure (g (c.items.map value)) : ReadM β) [] (g (c.items.map value)) :=
    (Decodes.pure _).when
  have hmap := c.bind (k := fun as => pure (g as)) ctx h hpure
  rw [List.append_nil] at hmap
  exact hmap.congr (by simp)

end Counted

end ValkeyRdb
