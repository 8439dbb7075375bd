import ValkeyRdb.Format.Listpack
import ValkeyRdb.Format.Strings
import ValkeyRdb.Format.Ziplist
import ValkeyRdb.Reader.Values

/-!
# Lists, sets and hashes as they are written

One logical value has several encodings. A form is one way to write a value in one of
them; the reader returns the value, whatever the form.
-/

namespace ValkeyRdb

open ReadAction (Decodes DecodesWhen FailsWith lift readExact)

/-! ### Blobs -/

/-- A compact encoding, stored in a string of any form. -/
structure Blob {ι : Type} (bytes : ι → Bytes) where
  form : ι
  string : StringForm
  content : string.value = bytes form

abbrev ListpackBlob := Blob Listpack.Form.bytes

abbrev ZiplistBlob := Blob Ziplist.Form.bytes

abbrev IntsetBlob := Blob Intset.Form.bytes

section Blob

variable {ι α : Type} {bytes : ι → Bytes}

theorem Blob.decodes (b : Blob bytes) {decode : Bytes → Res α} {x : α}
    (h : decode (bytes b.form) = .ok x) :
    DecodesWhen b.string.Fits (readBlob decode) b.string.bytes x := by
  have hlift : Decodes (lift (decode b.string.value) : ReadM α) [] x := by
    rw [b.content]
    exact Decodes.lift h
  have hblob := b.string.decodes.bind_decodes (f := fun blob => lift (decode blob)) hlift
  rwa [List.append_nil] at hblob

theorem Blob.map (b : Blob bytes) {decode : Bytes → Res α} {x : α}
    (h : decode (bytes b.form) = .ok x) {β : Type} (g : α → β) :
    DecodesWhen b.string.Fits (do
      let blob ← readString
      let a ← lift (decode blob)
      pure (g a)) b.string.bytes (g x) := by
  have hlift : Decodes (lift (decode b.string.value) : ReadM α) [] x := by
    rw [b.content]
    exact Decodes.lift h
  have hrest := hlift.bind_pure (f := fun a => pure (g a)) (Decodes.pure (g x))
  have hblob := b.string.decodes.bind_decodes (f := fun blob => lift (decode blob) >>= fun a =>
    pure (g a)) hrest
  rwa [List.append_nil] at hblob

end Blob

theorem ListpackBlob.decodes (b : ListpackBlob) :
    DecodesWhen b.string.Fits (readBlob Listpack.decode) b.string.bytes b.form.value :=
  Blob.decodes b (Listpack.decode_form b.form)

theorem ZiplistBlob.decodes (b : ZiplistBlob) :
    DecodesWhen b.string.Fits (readBlob Ziplist.decode) b.string.bytes b.form.value :=
  Blob.decodes b (Ziplist.decode_form b.form)

theorem StringForm.length_value_le (f : StringForm) (h : f.Fits) :
    f.value.length ≤ maxAllocBytes := by
  have hrun := (f.decodes.decodes h).run [] 0
  exact readString_returns.ok hrun

theorem IntsetBlob.decodes (b : IntsetBlob) :
    DecodesWhen (b.string.Fits ∧ b.form.elements.length ≤ Intset.maxIntsetElements)
      (readBlob Intset.decode) b.string.bytes b.form.value := by
  refine ⟨fun h => (Blob.decodes b (Intset.decode_form b.form h.2)).decodes h.1, fun h => ?_⟩
  by_cases hs : b.string.Fits
  · have hcap : ¬b.form.elements.length ≤ Intset.maxIntsetElements := fun hle => h ⟨hs, hle⟩
    have hlen := b.string.length_value_le hs
    have hsize := b.form.length_bytes
    have hwidth : 1 ≤ b.form.width.size := by cases b.form.width <;> decide
    have hmul := Nat.le_mul_of_pos_right b.form.elements.length hwidth
    rw [b.content, maxAllocBytes] at hlen
    obtain ⟨e, he⟩ := Intset.decode_form_error b.form (by omega) (by omega)
    have hlift : ReadAction.FailsWith (lift (Intset.decode b.string.value) : ReadM (List Bytes)) [] e := by
      rw [b.content]
      exact FailsWith.lift he
    have hfail := (b.string.decodes.decodes hs).bind_fails (f := fun blob => lift (Intset.decode blob))
      hlift
    rw [List.append_nil] at hfail
    exact ⟨e, hfail⟩
  · obtain ⟨e, he⟩ := b.string.decodes.fails hs
    exact ⟨e, he.bind⟩

def texts (entries : List CompactEntry) : List Bytes := entries.map CompactEntry.intoBytes

/-! ### Lists -/

/-- A node of a quicklist v2: one plain element, or a listpack of elements. -/
inductive NodeForm where
  | plain (container : LenForm) (s : StringForm) (h : container.value = 1)
  | packed (container : LenForm) (b : ListpackBlob) (h : container.value = 2)

namespace NodeForm

def elements : NodeForm → List Bytes
  | plain _ s _ => [s.value]
  | packed _ b _ => texts b.form.value

def bytes : NodeForm → Bytes
  | plain container s _ => container.bytes ++ s.bytes
  | packed container b _ => container.bytes ++ b.string.bytes

def Fits : NodeForm → Prop
  | plain _ s _ => s.Fits
  | packed _ b _ => b.string.Fits

theorem decodes (n : NodeForm) : DecodesWhen n.Fits readQuicklist2Node n.bytes n.elements := by
  cases n with
  | plain container s h =>
    have hc := container.decodesValue
    rw [h] at hc
    exact hc.bind_when (s.decodes.map fun node => [node])
  | packed container b h =>
    have hc := container.decodesValue
    rw [h] at hc
    exact hc.bind_when (b.map (Listpack.decode_form b.form) texts)

end NodeForm

inductive ListForm where
  | list (c : Counted StringForm)
  | ziplist (b : ZiplistBlob)
  | quicklist (c : Counted ZiplistBlob)
  | quicklist2 (c : Counted NodeForm)

namespace ListForm

def typeCode : ListForm → UInt8
  | list _ => rdbTypeList
  | ziplist _ => rdbTypeListZiplist
  | quicklist _ => rdbTypeListQuicklist
  | quicklist2 _ => rdbTypeListQuicklist2

def elements : ListForm → List Bytes
  | list c => c.items.map StringForm.value
  | ziplist b => texts b.form.value
  | quicklist c => c.items.flatMap fun b => texts b.form.value
  | quicklist2 c => c.items.flatMap NodeForm.elements

def bytes : ListForm → Bytes
  | list c => c.bytes StringForm.bytes
  | ziplist b => b.string.bytes
  | quicklist c => c.bytes fun b => b.string.bytes
  | quicklist2 c => c.bytes NodeForm.bytes

def Fits : ListForm → Prop
  | list c => c.Fits StringForm.Fits
  | ziplist b => b.string.Fits
  | quicklist c => c.Fits fun b => b.string.Fits
  | quicklist2 c => c.Fits NodeForm.Fits

theorem decodes (f : ListForm) :
    DecodesWhen f.Fits (readValue f.typeCode) f.bytes (.list f.elements) := by
  cases f with
  | list c =>
    exact c.map "element count" (fun s _ => s.decodes) RdbValue.list
  | ziplist b => exact (ZiplistBlob.decodes b).map fun entries => RdbValue.list (texts entries)
  | quicklist c =>
    have hnode : ∀ b ∈ c.items, DecodesWhen b.string.Fits readQuicklistNode b.string.bytes
        (texts b.form.value) := fun b _ => b.map (Ziplist.decode_form b.form) texts
    exact c.map "element count" hnode fun nodes => RdbValue.list nodes.flatten
  | quicklist2 c =>
    exact c.map "element count" (fun n _ => n.decodes) fun nodes =>
      RdbValue.list nodes.flatten

end ListForm

/-! ### Sets -/

inductive SetForm where
  | set (c : Counted StringForm)
  | listpack (b : ListpackBlob)
  | intset (b : IntsetBlob)

namespace SetForm

def typeCode : SetForm → UInt8
  | set _ => rdbTypeSet
  | listpack _ => rdbTypeSetListpack
  | intset _ => rdbTypeSetIntset

def members : SetForm → List Bytes
  | set c => c.items.map StringForm.value
  | listpack b => texts b.form.value
  | intset b => b.form.value

def bytes : SetForm → Bytes
  | set c => c.bytes StringForm.bytes
  | listpack b => b.string.bytes
  | intset b => b.string.bytes

/-- An intset has a cap of its own on its members. -/
def Fits : SetForm → Prop
  | set c => c.Fits StringForm.Fits
  | listpack b => b.string.Fits
  | intset b => b.string.Fits ∧ b.form.elements.length ≤ Intset.maxIntsetElements

theorem decodes (f : SetForm) :
    DecodesWhen f.Fits (readValue f.typeCode) f.bytes (.set f.members) := by
  cases f with
  | set c => exact c.map "element count" (fun s _ => s.decodes) RdbValue.set
  | listpack b => exact (ListpackBlob.decodes b).map fun entries => RdbValue.set (texts entries)
  | intset b => exact (IntsetBlob.decodes b).map RdbValue.set

end SetForm

/-! ### Pairs in a compact encoding -/

def unpaired (pairs : List (CompactEntry × CompactEntry)) : List CompactEntry :=
  pairs.flatMap fun p => [p.1, p.2]

theorem length_unpaired (pairs : List (CompactEntry × CompactEntry)) :
    (unpaired pairs).length = 2 * pairs.length := by
  rw [unpaired]
  induction pairs with
  | nil => rfl
  | cons p ps ih =>
    simp only [List.flatMap_cons, List.length_append, List.length_cons, List.length_nil, ih]
    omega

theorem hashPairsLoop_pairs (ctx : String) (pairs : List (CompactEntry × CompactEntry)) :
    hashPairsLoop ctx (unpaired pairs) =
      .ok (pairs.map fun p => ⟨p.1.intoBytes, p.2.intoBytes, none⟩) := by
  induction pairs with
  | nil => rfl
  | cons p ps ih =>
    change (hashPairsLoop ctx (unpaired ps) >>= _) = _
    rw [ih, ok_bind]
    rfl

theorem decodeHashPairs_pairs (ctx : String) (pairs : List (CompactEntry × CompactEntry)) :
    decodeHashPairs (unpaired pairs) ctx =
      .ok (pairs.map fun p => ⟨p.1.intoBytes, p.2.intoBytes, none⟩) := by
  have hlen := length_unpaired pairs
  rw [decodeHashPairs, if_neg (by omega), hashPairsLoop_pairs]

/-! ### Hashes -/

/-- A field of a `HASH_2`, with its expiry time or -1. -/
structure Hash2FieldForm where
  field : StringForm
  value : StringForm
  ttl : Int
  ttl_fits : FitsSigned 64 ttl

inductive HashForm where
  | hash (c : Counted (StringForm × StringForm))
  | hash2 (c : Counted Hash2FieldForm)
  | ziplist (b : ZiplistBlob) (pairs : List (CompactEntry × CompactEntry))
      (h : b.form.value = unpaired pairs)
  | listpack (b : ListpackBlob) (pairs : List (CompactEntry × CompactEntry))
      (h : b.form.value = unpaired pairs)

namespace Hash2FieldForm

def bytes (f : Hash2FieldForm) : Bytes :=
  f.field.bytes ++ (f.value.bytes ++ leBytes 8 (unsigned 64 f.ttl))

def Fits (f : Hash2FieldForm) : Prop := f.field.Fits ∧ f.value.Fits

def hashField (f : Hash2FieldForm) : HashField :=
  ⟨f.field.value, f.value.value, if f.ttl = -1 then none else some f.ttl⟩

end Hash2FieldForm

namespace HashForm

def typeCode : HashForm → UInt8
  | hash _ => rdbTypeHash
  | hash2 _ => rdbTypeHash2
  | ziplist _ _ _ => rdbTypeHashZiplist
  | listpack _ _ _ => rdbTypeHashListpack

def fields : HashForm → List HashField
  | hash c => c.items.map fun p => ⟨p.1.value, p.2.value, none⟩
  | hash2 c => c.items.map Hash2FieldForm.hashField
  | ziplist _ pairs _ => pairs.map fun p => ⟨p.1.intoBytes, p.2.intoBytes, none⟩
  | listpack _ pairs _ => pairs.map fun p => ⟨p.1.intoBytes, p.2.intoBytes, none⟩

def pairs : HashForm → List (Bytes × Bytes)
  | hash c => c.items.map fun p => (p.1.value, p.2.value)
  | hash2 c => c.items.map fun f => (f.field.value, f.value.value)
  | ziplist _ pairs _ => pairs.map fun p => (p.1.intoBytes, p.2.intoBytes)
  | listpack _ pairs _ => pairs.map fun p => (p.1.intoBytes, p.2.intoBytes)

def NoExpiry : HashForm → Prop
  | hash2 c => ∀ f ∈ c.items, f.ttl = -1
  | _ => True

def bytes : HashForm → Bytes
  | hash c => c.bytes fun p => p.1.bytes ++ p.2.bytes
  | hash2 c => c.bytes Hash2FieldForm.bytes
  | ziplist b _ _ => b.string.bytes
  | listpack b _ _ => b.string.bytes

def Fits : HashForm → Prop
  | hash c => c.Fits fun p => p.1.Fits ∧ p.2.Fits
  | hash2 c => c.Fits Hash2FieldForm.Fits
  | ziplist b _ _ => b.string.Fits
  | listpack b _ _ => b.string.Fits

end HashForm

theorem readI64Le_decodes {i : Int} (h : FitsSigned 64 i) :
    Decodes readI64Le (leBytes 8 (unsigned 64 i)) i := by
  have hlt : unsigned 64 i < 256 ^ 8 := unsigned_lt 64 i
  have hbuf : Decodes (readExact 8 : ReadM Bytes) (leBytes 8 (unsigned 64 i)) _ :=
    ReadAction.decodes_readExact_of_length (length_leBytes 8 _)
  have hval : signed 64 (leVal (leBytes 8 (unsigned 64 i))) = i := by
    rw [leVal_leBytes_of_lt hlt, signed_unsigned (by decide) h]
  have hread := hbuf.bind_pure (f := fun buf => pure (signed 64 (leVal buf))) (Decodes.pure _)
  rwa [hval] at hread

theorem readHashField_when (field value : StringForm) :
    DecodesWhen (field.Fits ∧ value.Fits) readHashField (field.bytes ++ value.bytes)
      ⟨field.value, value.value, none⟩ :=
  field.decodes.bind (value.decodes.map fun v => (⟨field.value, v, none⟩ : HashField))

theorem Hash2FieldForm.decodes (f : Hash2FieldForm) :
    DecodesWhen f.Fits readHash2Field f.bytes f.hashField := by
  have httl := (readI64Le_decodes f.ttl_fits).bind_pure (f := fun ttl =>
    pure (⟨f.field.value, f.value.value, if ttl = -1 then none else some ttl⟩ : HashField))
    (Decodes.pure _)
  have hvalue := f.value.decodes.bind_decodes (f := fun value => do
    let ttl ← readI64Le
    pure (⟨f.field.value, value, if ttl = -1 then none else some ttl⟩ : HashField)) httl
  exact f.field.decodes.bind hvalue

section Pairs

variable {ι : Type} {bytes : ι → Bytes}

theorem Blob.hashPairs (b : Blob bytes) {decode : Bytes → Res (List CompactEntry)}
    {pairs : List (CompactEntry × CompactEntry)}
    (h : decode (bytes b.form) = .ok (unpaired pairs)) (ctx : String) :
    DecodesWhen b.string.Fits (do
      let entries ← readBlob decode
      let fields ← lift (decodeHashPairs entries ctx)
      pure (RdbValue.hash fields)) b.string.bytes
      (.hash (pairs.map fun p => ⟨p.1.intoBytes, p.2.intoBytes, none⟩)) := by
  have hpairs : Decodes (lift (decodeHashPairs (unpaired pairs) ctx) : ReadM (List HashField)) []
      (pairs.map fun p => ⟨p.1.intoBytes, p.2.intoBytes, none⟩) :=
    Decodes.lift (decodeHashPairs_pairs ctx pairs)
  have hrest := hpairs.bind_pure (f := fun fields => pure (RdbValue.hash fields)) (Decodes.pure _)
  have hblob := (b.decodes h).bind_decodes (f := fun entries => do
    let fields ← lift (decodeHashPairs entries ctx)
    pure (RdbValue.hash fields)) hrest
  rwa [List.append_nil] at hblob

end Pairs

theorem HashForm.decodes (f : HashForm) :
    DecodesWhen f.Fits (readValue f.typeCode) f.bytes (.hash f.fields) := by
  cases f with
  | hash c =>
    exact c.map "element count" (fun p _ => readHashField_when p.1 p.2) RdbValue.hash
  | hash2 c => exact c.map "element count" (fun t _ => t.decodes) RdbValue.hash
  | ziplist b pairs h =>
    have hdec := Ziplist.decode_form b.form
    rw [h] at hdec
    exact b.hashPairs hdec "hash ziplist"
  | listpack b pairs h =>
    have hdec := Listpack.decode_form b.form
    rw [h] at hdec
    exact b.hashPairs hdec "hash listpack"

theorem HashForm.fields_noExpiry (f : HashForm) (h : f.NoExpiry) :
    f.fields = f.pairs.map fun p => ⟨p.1, p.2, none⟩ := by
  cases f with
  | hash c => simp [fields, pairs]
  | hash2 c =>
    simp only [fields, pairs, List.map_map]
    refine List.map_congr_left fun t ht => ?_
    have httl : t.ttl = -1 := h t ht
    simp [Hash2FieldForm.hashField, httl]
  | ziplist b pairs hb => simp [fields, HashForm.pairs]
  | listpack b pairs hb => simp [fields, HashForm.pairs]

/-! ### The value does not depend on the encoding -/

/-- On the bytes of a payload, whatever follows them, a value of type `typeCode` is read:
exactly these bytes are taken. -/
def ReadsValue (typeCode : UInt8) (payload : Bytes) (value : RdbValue) : Prop :=
  ∀ rest crc, (readValue typeCode).run ⟨payload ++ rest, crc⟩ =
    (.ok value, ⟨rest, crc64 crc payload⟩)

theorem value_ignores_encoding :
    (∀ (elements : List Bytes) (f : ListForm), f.elements = elements → f.Fits →
      ReadsValue f.typeCode f.bytes (.list elements)) ∧
    (∀ (members : List Bytes) (f : SetForm), f.members = members → f.Fits →
      ReadsValue f.typeCode f.bytes (.set members)) ∧
    (∀ (pairs : List (Bytes × Bytes)) (f : HashForm), f.pairs = pairs → f.NoExpiry → f.Fits →
      ReadsValue f.typeCode f.bytes (.hash (pairs.map fun p => ⟨p.1, p.2, none⟩))) := by
  refine ⟨?_, ?_, ?_⟩
  · rintro elements f rfl hfits rest crc
    exact (f.decodes.decodes hfits).run rest crc
  · rintro members f rfl hfits rest crc
    exact (f.decodes.decodes hfits).run rest crc
  · rintro pairs f rfl hexp hfits rest crc
    have hrun := (f.decodes.decodes hfits).run rest crc
    rw [f.fields_noExpiry hexp] at hrun
    exact hrun

/-- The element "12", written as an integer. -/
def twelve : StringForm := .int8 12 (by decide)

def letterA : StringForm := .raw .one [97] rfl

/-- "12" and "a" in a listpack. -/
def twelveListpack : Listpack.Form where
  entries := [.uint7 12 (by decide), .str6 [97] (by decide)]
  numElements := 2
  size_lt := by decide

def twelveBlob : ListpackBlob :=
  ⟨twelveListpack, .raw (.six twelveListpack.bytes.length (by decide +kernel)) twelveListpack.bytes
    rfl, rfl⟩

/-- "12", "a" and "12" as a plain list, and as a quicklist of a packed and a plain node. -/
def twelveList : ListForm := .list ⟨.thirtyTwo 3 (by decide), [twelve, letterA, twelve], rfl⟩

def twelveNodes : ListForm :=
  .quicklist2 ⟨.six 2 (by decide),
    [.packed (.six 2 (by decide)) twelveBlob rfl, .plain .one twelve rfl], rfl⟩

def twelveIntset : Intset.Form where
  width := .two
  elements := [12, 300]
  fits := by decide

/-- "12" and "300" as an intset, and as strings. -/
def twelveSet : SetForm :=
  .intset ⟨twelveIntset, .raw (.fourteen twelveIntset.bytes.length (by decide +kernel)) twelveIntset.bytes
    rfl, rfl⟩

def twelveStrings : SetForm := .set ⟨.six 2 (by decide), [twelve, .int16 300 (by decide)], rfl⟩

/-- The fields "12" and "a", as fields that could have expired and as plain ones. -/
def twelveHash : HashForm :=
  .hash2 ⟨.six 2 (by decide), [⟨twelve, letterA, -1, by decide⟩, ⟨letterA, twelve, -1, by decide⟩], rfl⟩

def twelvePairs : HashForm :=
  .hash ⟨.six 2 (by decide), [(twelve, letterA), (letterA, twelve)], rfl⟩

theorem value_ignores_encoding_twelve :
    ReadsValue rdbTypeList twelveList.bytes (.list [[49, 50], [97], [49, 50]]) ∧
    ReadsValue rdbTypeListQuicklist2 twelveNodes.bytes (.list [[49, 50], [97], [49, 50]]) ∧
    ReadsValue rdbTypeSetIntset twelveSet.bytes (.set [[49, 50], [51, 48, 48]]) ∧
    ReadsValue rdbTypeSet twelveStrings.bytes (.set [[49, 50], [51, 48, 48]]) ∧
    ReadsValue rdbTypeHash2 twelveHash.bytes
      (.hash [⟨[49, 50], [97], none⟩, ⟨[97], [49, 50], none⟩]) ∧
    ReadsValue rdbTypeHash twelvePairs.bytes
      (.hash [⟨[49, 50], [97], none⟩, ⟨[97], [49, 50], none⟩]) := by
  have htwelve : twelve.Fits := by simp [twelve, StringForm.Fits]
  have hletter : letterA.Fits := by simp [letterA, StringForm.Fits, maxAllocBytes]
  have hthree : (StringForm.int16 300 (by decide)).Fits := by simp [StringForm.Fits]
  have hlist : twelveList.Fits := ⟨by decide, by simp [htwelve, hletter]⟩
  have hblob : twelveBlob.string.Fits := by
    change twelveListpack.bytes.length ≤ maxAllocBytes
    decide +kernel
  have hnodes : twelveNodes.Fits := ⟨by decide, by simp [NodeForm.Fits, htwelve, hblob]⟩
  have hintset : twelveIntset.bytes.length ≤ maxAllocBytes := by decide +kernel
  have hset : twelveSet.Fits := ⟨hintset, by decide⟩
  have hstrings : twelveStrings.Fits := ⟨by decide, by simp [htwelve, hthree]⟩
  have hhash : twelveHash.Fits := ⟨by decide, by simp [htwelve, hletter, Hash2FieldForm.Fits]⟩
  have hexp : twelveHash.NoExpiry := by simp [twelveHash, HashForm.NoExpiry]
  have hpairs : twelvePairs.Fits := ⟨by decide, by simp [htwelve, hletter]⟩
  refine ⟨value_ignores_encoding.1 _ twelveList (by decide +kernel) hlist,
    value_ignores_encoding.1 _ twelveNodes (by decide +kernel) hnodes,
    value_ignores_encoding.2.1 _ twelveSet (by decide +kernel) hset,
    value_ignores_encoding.2.1 _ twelveStrings (by decide +kernel) hstrings, ?_, ?_⟩
  · exact value_ignores_encoding.2.2 [([49, 50], [97]), ([97], [49, 50])] twelveHash (by decide +kernel)
      hexp hhash
  · exact value_ignores_encoding.2.2 [([49, 50], [97]), ([97], [49, 50])] twelvePairs (by decide +kernel)
      trivial hpairs

end ValkeyRdb
