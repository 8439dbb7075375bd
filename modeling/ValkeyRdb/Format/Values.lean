import ValkeyRdb.Format.StreamValue

/-!
# Values of every supported type as they are written

`ValueForm` gathers the forms of all types that the reader supports. A value is read
exactly when it is within the caps and, for a stream, its IDs are near their master IDs.
-/

namespace ValkeyRdb

open ReadAction (Decodes DecodesWhen FailsWith lift readExact)

/-! ### Sorted sets -/

/-- A score in one length byte and its text, or in one of three special bytes. -/
inductive ScoreForm where
  | nan
  | infinity
  | negInfinity
  | text (s : Bytes) (x : F64) (hlen : s.length < 253) (hutf8 : validUtf8 s = true)
      (hparse : parseF64 s = some x)

namespace ScoreForm

def value : ScoreForm → F64
  | nan => F64.nan
  | infinity => F64.infinity
  | negInfinity => F64.negInfinity
  | text _ x _ _ _ => x

def bytes : ScoreForm → Bytes
  | nan => [253]
  | infinity => [254]
  | negInfinity => [255]
  | text s _ _ _ _ => UInt8.ofNat s.length :: s

theorem decodes (f : ScoreForm) : Decodes readDoubleValue f.bytes f.value := by
  cases f with
  | nan => exact (readU8_decodes 253).bind_pure (Decodes.pure _)
  | infinity => exact (readU8_decodes 254).bind_pure (Decodes.pure _)
  | negInfinity => exact (readU8_decodes 255).bind_pure (Decodes.pure _)
  | text s x hlen hutf8 hparse =>
    have hval : (UInt8.ofNat s.length).toNat = s.length := toNat_ofNat_of_lt (by omega)
    have hne : ∀ b : UInt8, 253 ≤ b.toNat → UInt8.ofNat s.length ≠ b := by
      intro b hb heq
      rw [← heq, hval] at hb
      omega
    have htext : parseDoubleText s = .ok x := by
      rw [parseDoubleText, if_pos hutf8, hparse]
    refine (readU8_decodes (UInt8.ofNat s.length)).bind (c := s) ?_
    rw [if_neg (hne 255 (by decide)), if_neg (hne 254 (by decide)), if_neg (hne 253 (by decide)),
      hval]
    have hbuf : Decodes (readExactVec s.length) s s := ReadAction.decodes_readExact s
    exact hbuf.bind_pure (Decodes.lift htext)

end ScoreForm

/-- A score as an entry of a compact encoding. -/
inductive ScoreEntry where
  | int (i : Int)
  | text (s : Bytes) (x : F64) (hutf8 : validUtf8 s = true) (hparse : parseF64 s = some x)

namespace ScoreEntry

def entry : ScoreEntry → CompactEntry
  | int i => .int i
  | text s _ _ _ => .str s

def value : ScoreEntry → F64
  | int i => f64OfInt i
  | text _ x _ _ => x

theorem toF64 (e : ScoreEntry) : e.entry.toF64 = .ok e.value := by
  cases e with
  | int i => rfl
  | text s x hutf8 hparse =>
    change (if validUtf8 s then _ else _ : Res F64) = _
    rw [if_pos hutf8, hparse]
    rfl

end ScoreEntry

def unpairedScores (pairs : List (CompactEntry × ScoreEntry)) : List CompactEntry :=
  unpaired (pairs.map fun p => (p.1, p.2.entry))

theorem decodeZsetPairs_pairs (ctx : String) (pairs : List (CompactEntry × ScoreEntry)) :
    decodeZsetPairs (unpairedScores pairs) ctx =
      .ok (pairs.map fun p => (p.1.intoBytes, p.2.value)) := by
  have hlen := length_unpaired (pairs.map fun p => (p.1, p.2.entry))
  have hloop : zsetPairsLoop ctx (unpairedScores pairs) =
      .ok (pairs.map fun p => (p.1.intoBytes, p.2.value)) := by
    clear hlen
    induction pairs with
    | nil => rfl
    | cons p ps ih =>
      change (p.2.entry.toF64 >>= fun score => zsetPairsLoop ctx (unpairedScores ps) >>= _) = _
      rw [p.2.toF64, ok_bind, ih, ok_bind]
      rfl
  rw [decodeZsetPairs, unpairedScores, if_neg (by omega)]
  exact hloop

inductive SortedSetForm where
  | zset (c : Counted (StringForm × ScoreForm))
  | zset2 (c : Counted (StringForm × Raw 8))
  | ziplist (b : ZiplistBlob) (pairs : List (CompactEntry × ScoreEntry))
      (h : b.form.value = unpairedScores pairs)
  | listpack (b : ListpackBlob) (pairs : List (CompactEntry × ScoreEntry))
      (h : b.form.value = unpairedScores pairs)

theorem readZsetPair_when (member : StringForm) (score : ScoreForm) :
    DecodesWhen member.Fits readZsetPair (member.bytes ++ score.bytes)
      (member.value, score.value) :=
  member.decodes.bind_decodes (score.decodes.map fun x => (member.value, x))

theorem readZset2Pair_when (member : StringForm) (score : Raw 8) :
    DecodesWhen member.Fits readZset2Pair (member.bytes ++ score.val)
      (member.value, F64.ofLeBytes score.val) :=
  member.decodes.bind_decodes (score.decodes.map fun b => (member.value, F64.ofLeBytes b))

section Pairs

variable {ι : Type} {bytes : ι → Bytes}

theorem Blob.zsetPairs (b : Blob bytes) {decode : Bytes → Res (List CompactEntry)}
    {pairs : List (CompactEntry × ScoreEntry)}
    (h : decode (bytes b.form) = .ok (unpairedScores pairs)) (ctx : String) :
    DecodesWhen b.string.Fits (do
      let entries ← readBlob decode
      let pairs ← lift (decodeZsetPairs entries ctx)
      pure (RdbValue.sortedSet pairs)) b.string.bytes
      (.sortedSet (pairs.map fun p => (p.1.intoBytes, p.2.value))) := by
  have hpairs : Decodes (lift (decodeZsetPairs (unpairedScores pairs) ctx) :
      ReadM (List (Bytes × F64))) [] (pairs.map fun p => (p.1.intoBytes, p.2.value)) :=
    Decodes.lift (decodeZsetPairs_pairs ctx pairs)
  have hblob := (b.decodes h).bind_decodes (f := fun entries => do
    let pairs ← lift (decodeZsetPairs entries ctx)
    pure (RdbValue.sortedSet pairs)) (hpairs.map RdbValue.sortedSet)
  rwa [List.append_nil] at hblob

end Pairs

namespace SortedSetForm

def typeCode : SortedSetForm → UInt8
  | zset _ => rdbTypeZset
  | zset2 _ => rdbTypeZset2
  | ziplist _ _ _ => rdbTypeZsetZiplist
  | listpack _ _ _ => rdbTypeZsetListpack

def pairs : SortedSetForm → List (Bytes × F64)
  | zset c => c.items.map fun p => (p.1.value, p.2.value)
  | zset2 c => c.items.map fun p => (p.1.value, F64.ofLeBytes p.2.val)
  | ziplist _ pairs _ => pairs.map fun p => (p.1.intoBytes, p.2.value)
  | listpack _ pairs _ => pairs.map fun p => (p.1.intoBytes, p.2.value)

def bytes : SortedSetForm → Bytes
  | zset c => c.bytes fun p => p.1.bytes ++ p.2.bytes
  | zset2 c => c.bytes fun p => p.1.bytes ++ p.2.val
  | ziplist b _ _ => b.string.bytes
  | listpack b _ _ => b.string.bytes

def Fits : SortedSetForm → Prop
  | zset c => c.Fits fun p => p.1.Fits
  | zset2 c => c.Fits fun p => p.1.Fits
  | ziplist b _ _ => b.string.Fits
  | listpack b _ _ => b.string.Fits

theorem decodes (f : SortedSetForm) :
    DecodesWhen f.Fits (readValue f.typeCode) f.bytes (.sortedSet f.pairs) := by
  cases f with
  | zset c =>
    exact c.map "element count" (fun p _ => readZsetPair_when p.1 p.2) RdbValue.sortedSet
  | zset2 c =>
    exact c.map "element count" (fun p _ => readZset2Pair_when p.1 p.2) RdbValue.sortedSet
  | ziplist b pairs h =>
    have hdec := Ziplist.decode_form b.form
    rw [h] at hdec
    exact b.zsetPairs hdec "zset ziplist"
  | listpack b pairs h =>
    have hdec := Listpack.decode_form b.form
    rw [h] at hdec
    exact b.zsetPairs hdec "zset listpack"

end SortedSetForm

/-! ### All types -/

inductive ValueForm where
  | string (s : StringForm)
  | list (f : ListForm)
  | set (f : SetForm)
  | sortedSet (f : SortedSetForm)
  | hash (f : HashForm)
  | stream (f : StreamForm)
  | module (f : ModuleForm)

namespace ValueForm

def typeCode : ValueForm → UInt8
  | string _ => rdbTypeString
  | list f => f.typeCode
  | set f => f.typeCode
  | sortedSet f => f.typeCode
  | hash f => f.typeCode
  | stream f => f.typeCode
  | module _ => rdbTypeModule2

def value : ValueForm → RdbValue
  | string s => .string s.value
  | list f => .list f.elements
  | set f => .set f.members
  | sortedSet f => .sortedSet f.pairs
  | hash f => .hash f.fields
  | stream f => .stream f.value
  | module f => .module f.value

def bytes : ValueForm → Bytes
  | string s => s.bytes
  | list f => f.bytes
  | set f => f.bytes
  | sortedSet f => f.bytes
  | hash f => f.bytes
  | stream f => f.bytes
  | module f => f.bytes

/-- Counts, strings and payloads are within the caps of the reader. -/
def WithinCaps : ValueForm → Prop
  | string s => s.Fits
  | list f => f.Fits
  | set f => f.Fits
  | sortedSet f => f.Fits
  | hash f => f.Fits
  | stream f => f.WithinCaps
  | module f => f.Fits

/-- The IDs of a stream are near their master IDs. -/
def Near : ValueForm → Prop
  | stream f => f.Near
  | _ => True

def Fits (f : ValueForm) : Prop := f.WithinCaps ∧ f.Near

theorem decodes (f : ValueForm) :
    DecodesWhen f.Fits (readValue f.typeCode) f.bytes f.value := by
  cases f with
  | string s => exact (s.decodes.map RdbValue.string).congr (by simp [Fits, WithinCaps, Near])
  | list f => exact f.decodes.congr (by simp [Fits, WithinCaps, Near])
  | set f => exact f.decodes.congr (by simp [Fits, WithinCaps, Near])
  | sortedSet f => exact f.decodes.congr (by simp [Fits, WithinCaps, Near])
  | hash f => exact f.decodes.congr (by simp [Fits, WithinCaps, Near])
  | stream f =>
    have hread : readValue f.typeCode = readStream f.typeCode := by
      rw [StreamForm.typeCode]
      cases f.version <;> rfl
    change DecodesWhen _ (readValue f.typeCode) _ _
    rw [hread]
    exact f.decodes
  | module f => exact f.decodes.congr (by simp [Fits, WithinCaps, Near])

/-- The type codes of the values that have a form. -/
def typeCodes : List UInt8 :=
  [rdbTypeString, rdbTypeList, rdbTypeListZiplist, rdbTypeListQuicklist, rdbTypeListQuicklist2,
    rdbTypeSet, rdbTypeSetListpack, rdbTypeSetIntset, rdbTypeZset, rdbTypeZset2, rdbTypeZsetZiplist,
    rdbTypeZsetListpack, rdbTypeHash, rdbTypeHash2, rdbTypeHashZiplist, rdbTypeHashListpack,
    rdbTypeStreamListpacks, rdbTypeStreamListpacks2, rdbTypeStreamListpacks3, rdbTypeModule2]

theorem typeCode_mem (f : ValueForm) : f.typeCode ∈ typeCodes := by
  cases f with
  | string s => simp [typeCode, typeCodes]
  | list f => cases f <;> simp [typeCode, ListForm.typeCode, typeCodes]
  | set f => cases f <;> simp [typeCode, SetForm.typeCode, typeCodes]
  | sortedSet f => cases f <;> simp [typeCode, SortedSetForm.typeCode, typeCodes]
  | hash f => cases f <;> simp [typeCode, HashForm.typeCode, typeCodes]
  | stream f =>
    change f.version.typeCode ∈ typeCodes
    cases f.version <;> simp [StreamVersion.typeCode, typeCodes]
  | module f => simp [typeCode, typeCodes]

theorem typeCode_isObjectType (f : ValueForm) : isObjectType f.typeCode = true := by
  have hall : ∀ c ∈ typeCodes, isObjectType c = true := by decide +kernel
  exact hall _ f.typeCode_mem

theorem typeCode_ne_zipmap (f : ValueForm) : f.typeCode ≠ rdbTypeHashZipmap := by
  have hall : ∀ c ∈ typeCodes, c ≠ rdbTypeHashZipmap := by decide +kernel
  exact hall _ f.typeCode_mem

end ValueForm

end ValkeyRdb
