import ValkeyRdb.Lib.Text
import ValkeyRdb.Lib.ReadRules

/-!
# Wire constants and parser types (opcodes.rs, types.rs)

Constants keep the names of `rdb.h`. A Rust `String` is its UTF-8 byte string where
it comes from the file, and a `String` where the parser formats it.
-/

namespace ValkeyRdb

/-! ### Opcodes (opcodes.rs:17-29) -/

@[match_pattern] abbrev rdbOpcodeSlotImport : UInt8 := 243
@[match_pattern] abbrev rdbOpcodeSlotInfo : UInt8 := 244
@[match_pattern] abbrev rdbOpcodeFunction2 : UInt8 := 245
@[match_pattern] abbrev rdbOpcodeFunctionPreGa : UInt8 := 246
@[match_pattern] abbrev rdbOpcodeModuleAux : UInt8 := 247
@[match_pattern] abbrev rdbOpcodeIdle : UInt8 := 248
@[match_pattern] abbrev rdbOpcodeFreq : UInt8 := 249
@[match_pattern] abbrev rdbOpcodeAux : UInt8 := 250
@[match_pattern] abbrev rdbOpcodeResizedb : UInt8 := 251
@[match_pattern] abbrev rdbOpcodeExpiretimeMs : UInt8 := 252
@[match_pattern] abbrev rdbOpcodeExpiretime : UInt8 := 253
@[match_pattern] abbrev rdbOpcodeSelectdb : UInt8 := 254
@[match_pattern] abbrev rdbOpcodeEof : UInt8 := 255

/-! ### Value type codes (opcodes.rs:33-55) -/

@[match_pattern] abbrev rdbTypeString : UInt8 := 0
@[match_pattern] abbrev rdbTypeList : UInt8 := 1
@[match_pattern] abbrev rdbTypeSet : UInt8 := 2
@[match_pattern] abbrev rdbTypeZset : UInt8 := 3
@[match_pattern] abbrev rdbTypeHash : UInt8 := 4
@[match_pattern] abbrev rdbTypeZset2 : UInt8 := 5
@[match_pattern] abbrev rdbTypeModulePreGa : UInt8 := 6
@[match_pattern] abbrev rdbTypeModule2 : UInt8 := 7
@[match_pattern] abbrev rdbTypeHashZipmap : UInt8 := 9
@[match_pattern] abbrev rdbTypeListZiplist : UInt8 := 10
@[match_pattern] abbrev rdbTypeSetIntset : UInt8 := 11
@[match_pattern] abbrev rdbTypeZsetZiplist : UInt8 := 12
@[match_pattern] abbrev rdbTypeHashZiplist : UInt8 := 13
@[match_pattern] abbrev rdbTypeListQuicklist : UInt8 := 14
@[match_pattern] abbrev rdbTypeStreamListpacks : UInt8 := 15
@[match_pattern] abbrev rdbTypeHashListpack : UInt8 := 16
@[match_pattern] abbrev rdbTypeZsetListpack : UInt8 := 17
@[match_pattern] abbrev rdbTypeListQuicklist2 : UInt8 := 18
@[match_pattern] abbrev rdbTypeStreamListpacks2 : UInt8 := 19
@[match_pattern] abbrev rdbTypeSetListpack : UInt8 := 20
@[match_pattern] abbrev rdbTypeStreamListpacks3 : UInt8 := 21
@[match_pattern] abbrev rdbTypeHash2 : UInt8 := 22

/-! ### Length and string encodings (opcodes.rs:59-70) -/

@[match_pattern] abbrev rdb6bitlen : UInt8 := 0
@[match_pattern] abbrev rdb14bitlen : UInt8 := 1
@[match_pattern] abbrev rdbEncval : UInt8 := 3
abbrev rdb32bitlen : UInt8 := 0x80
abbrev rdb64bitlen : UInt8 := 0x81
@[match_pattern] abbrev rdbEncInt8 : UInt8 := 0
@[match_pattern] abbrev rdbEncInt16 : UInt8 := 1
@[match_pattern] abbrev rdbEncInt32 : UInt8 := 2
@[match_pattern] abbrev rdbEncLzf : UInt8 := 3

/-- opcodes.rs:73 -/
def isObjectType (t : UInt8) : Bool := t ≤ 7 || (9 ≤ t && t ≤ rdbTypeHash2)

/-- Logical type name of a type code (opcodes.rs:78). -/
def typeName (t : UInt8) : String :=
  match t with
  | rdbTypeString => "string"
  | rdbTypeList | rdbTypeListZiplist | rdbTypeListQuicklist | rdbTypeListQuicklist2 => "list"
  | rdbTypeSet | rdbTypeSetIntset | rdbTypeSetListpack => "set"
  | rdbTypeZset | rdbTypeZset2 | rdbTypeZsetZiplist | rdbTypeZsetListpack => "zset"
  | rdbTypeHash | rdbTypeHashZipmap | rdbTypeHashZiplist | rdbTypeHashListpack
  | rdbTypeHash2 => "hash"
  | rdbTypeStreamListpacks | rdbTypeStreamListpacks2 | rdbTypeStreamListpacks3 => "stream"
  | rdbTypeModulePreGa | rdbTypeModule2 => "module"
  | _ => "unknown"

/-- Encoding name of a type code (opcodes.rs:127). -/
def encodingName (t : UInt8) : String :=
  match t with
  | rdbTypeString => "string"
  | rdbTypeList => "linkedlist"
  | rdbTypeSet => "hashtable"
  | rdbTypeZset => "skiplist"
  | rdbTypeZset2 => "skiplist"
  | rdbTypeHash => "hashtable"
  | rdbTypeHashZipmap => "zipmap"
  | rdbTypeListZiplist => "ziplist"
  | rdbTypeSetIntset => "intset"
  | rdbTypeZsetZiplist => "ziplist"
  | rdbTypeHashZiplist => "ziplist"
  | rdbTypeListQuicklist => "quicklist"
  | rdbTypeListQuicklist2 => "quicklist2"
  | rdbTypeHashListpack => "listpack"
  | rdbTypeZsetListpack => "listpack"
  | rdbTypeSetListpack => "listpack"
  | rdbTypeStreamListpacks => "stream"
  | rdbTypeStreamListpacks2 => "stream2"
  | rdbTypeStreamListpacks3 => "stream3"
  | rdbTypeHash2 => "hashtable"
  | rdbTypeModulePreGa | rdbTypeModule2 => "module"
  | _ => "unknown"

/-! ### Errors (types.rs:274-290) -/

/-- Why `read_exact` failed: the source has no more bytes, or a read of it failed with this
text. A byte string fails in the first way only. -/
inductive IoErrorKind where
  | unexpectedEof
  | other (text : String)
  deriving DecidableEq

inductive RdbError where
  | io (kind : IoErrorKind)
  | invalidMagic
  | unsupportedVersion (version : Nat)
  | corruptData (msg : String)
  | unknownType (t : UInt8)
  deriving DecidableEq

/-- How a call of the parser can fail to return a value: with an `Err`, with a
panic (an index out of range, an arithmetic overflow, an `unreachable!`), or by
never returning. -/
inductive Fault where
  | error (e : RdbError)
  | panic
  | diverge
  deriving DecidableEq

/-- Result of fallible code; `Except.error (.error e)` is Rust's `Err(e)`. -/
abbrev Res := Except Fault

/-- `Err(RdbError::CorruptData(msg))` -/
def corrupt {α : Type} (msg : String) : Res α := .error (.error (.corruptData msg))

@[simp] theorem ok_bind {ε α β : Type} (a : α) (f : α → Except ε β) :
    (Except.ok a : Except ε α) >>= f = f a := rfl

@[simp] theorem error_bind {ε α β : Type} (e : ε) (f : α → Except ε β) :
    (Except.error e : Except ε α) >>= f = .error e := rfl

theorem bind_eq_ok_iff {ε α β : Type} {x : Except ε α} {f : α → Except ε β} {b : β} :
    x >>= f = .ok b ↔ ∃ a, x = .ok a ∧ f a = .ok b := by
  cases x with
  | error e => simp
  | ok a => simp

/-- A fault that is an `Err` value: neither a panic nor a divergence. -/
def Fault.IsError : Fault → Prop
  | .error _ => True
  | .panic => False
  | .diverge => False

/-- An `Err` other than the one for a type that was skipped. -/
def Fault.IsInputError : Fault → Prop
  | .error (.unknownType _) => False
  | .error _ => True
  | .panic => False
  | .diverge => False

theorem Fault.IsInputError.isError {f : Fault} (h : f.IsInputError) : f.IsError := by
  cases f with
  | error e => trivial
  | panic => exact h
  | diverge => exact h

/-- The computation returns: with a value satisfying `Q` or with an `Err` about its
input. -/
abbrev Returns {α : Type} (x : Res α) (Q : α → Prop) : Prop :=
  ExceptMeets Fault.IsInputError x Q

@[simp] theorem returns_corrupt {α : Type} {Q : α → Prop} {msg : String} :
    Returns (corrupt msg : Res α) Q := trivial

/-! ### Header and metadata (types.rs:8-70) -/

inductive RdbMagic where
  | redis
  | valkey
  deriving DecidableEq

structure RdbHeader where
  magic : RdbMagic
  version : Nat
  deriving DecidableEq

/-! ### Values (types.rs:73-152) -/

structure HashField where
  field : Bytes
  value : Bytes
  expiryMs : Option Int
  deriving DecidableEq

inductive ModuleValue where
  | signedInt (v : Int)
  | unsignedInt (v : Nat)
  | float (v : F32)
  | double (v : F64)
  | string (v : Bytes)
  deriving DecidableEq

structure ModuleData where
  moduleName : Bytes
  moduleVersion : Nat
  values : List ModuleValue
  deriving DecidableEq

structure StreamEntry where
  id : String
  fields : List (Bytes × Bytes)
  deriving DecidableEq

structure StreamData where
  entries : List StreamEntry
  length : Nat
  lastId : String
  deriving DecidableEq

inductive RdbValue where
  | string (data : Bytes)
  | list (elements : List Bytes)
  | set (members : List Bytes)
  | sortedSet (pairs : List (Bytes × F64))
  | hash (fields : List HashField)
  | module (data : ModuleData)
  | stream (data : StreamData)
  deriving DecidableEq

/-- One key, or one chunk of a key (types.rs:158-188). -/
structure RdbEntry where
  db : Nat
  key : Bytes
  value : RdbValue
  typeCode : UInt8
  expiryMs : Option Int
  lruIdleSecs : Option Nat
  lfuFrequency : Option UInt8
  totalElements : Option Nat
  elementOffset : Option Nat
  deriving DecidableEq

/-- types.rs:257 -/
def RdbEntry.isFirstChunk (e : RdbEntry) : Bool :=
  e.elementOffset.isNone || e.elementOffset == some 0

/-- types.rs:262 -/
def RdbEntry.typeName (e : RdbEntry) : String := ValkeyRdb.typeName e.typeCode

/-- types.rs:267 -/
def RdbEntry.encodingName (e : RdbEntry) : String := ValkeyRdb.encodingName e.typeCode

/-! ### Checked machine operations

`usize` and `u64` are natural numbers; the operations that panic in Rust are the
ones below. -/

/-- `a + b` on 64-bit integers. -/
def add64 (a b : Nat) : Res Nat := if a + b < 2 ^ 64 then .ok (a + b) else .error .panic

/-- `a - b` on unsigned integers. -/
def sub64 (a b : Nat) : Res Nat := if b ≤ a then .ok (a - b) else .error .panic

/-- `buf[i]` -/
def index {α : Type} (buf : List α) (i : Nat) : Res α :=
  match buf[i]? with
  | some b => .ok b
  | none => .error .panic

/-- `buf[a..b]` -/
def slice {α : Type} (buf : List α) (a b : Nat) : Res (List α) :=
  if a ≤ b ∧ b ≤ buf.length then .ok ((buf.take b).drop a) else .error .panic

/-- `buf[a..]` -/
def sliceFrom {α : Type} (buf : List α) (a : Nat) : Res (List α) :=
  if a ≤ buf.length then .ok (buf.drop a) else .error .panic

theorem add64_eq {a b : Nat} (h : a + b < 2 ^ 64) : add64 a b = .ok (a + b) := if_pos h

theorem sub64_eq {a b : Nat} (h : b ≤ a) : sub64 a b = .ok (a - b) := if_pos h

theorem index_eq {α : Type} {buf : List α} {i : Nat} {b : α} (h : buf[i]? = some b) :
    index buf i = .ok b := by rw [index, h]

theorem slice_eq {α : Type} {buf : List α} {a b : Nat} (h : a ≤ b ∧ b ≤ buf.length) :
    slice buf a b = .ok ((buf.take b).drop a) := if_pos h

theorem sliceFrom_eq {α : Type} {buf : List α} {a : Nat} (h : a ≤ buf.length) :
    sliceFrom buf a = .ok (buf.drop a) := if_pos h

theorem index_lt {α : Type} {buf : List α} {i : Nat} (h : i < buf.length) :
    index buf i = .ok buf[i] := index_eq (List.getElem?_eq_getElem h)

theorem index_append {α : Type} (pre xs : List α) {k : Nat} {b : α} (h : xs[k]? = some b) :
    index (pre ++ xs) (pre.length + k) = .ok b := by
  refine index_eq ?_
  rw [List.getElem?_append_right (Nat.le_add_right _ _), Nat.add_sub_cancel_left]
  exact h

theorem slice_append {α : Type} (pre mid post : List α) {n : Nat}
    (hn : n = pre.length + mid.length) : slice (pre ++ (mid ++ post)) pre.length n = .ok mid := by
  subst hn
  rw [slice_eq ⟨Nat.le_add_right _ _, by simp only [List.length_append]; omega⟩, ← List.append_assoc,
    ← List.length_append, List.take_left, List.drop_left]

theorem sliceFrom_append {α : Type} (pre post : List α) :
    sliceFrom (pre ++ post) pre.length = .ok post := by
  rw [sliceFrom_eq (by simp), List.drop_left]

/-! ### Partial correctness -/

/-- A value that is returned satisfies `Q`; nothing is said of a fault. -/
abbrev Gives {α : Type} (x : Res α) (Q : α → Prop) : Prop := ExceptMeets (fun _ => True) x Q

theorem Gives.of_ok {α : Type} {x : Res α} {Q : α → Prop} {a : α} (h : Gives x Q)
    (hx : x = .ok a) : Q a := by
  rw [hx] at h
  exact h

@[simp] theorem gives_corrupt {α : Type} {Q : α → Prop} {msg : String} :
    Gives (corrupt msg : Res α) Q := trivial

theorem gives_refl {α : Type} (x : Res α) : Gives x (fun a => x = .ok a) := by
  cases x with
  | error e => trivial
  | ok a => rfl

theorem add64_gives (a b : Nat) : Gives (add64 a b) (fun n => n = a + b ∧ a + b < 2 ^ 64) :=
  ExceptMeets.ite (fun h => ⟨rfl, h⟩) fun _ => trivial

theorem index_gives {α : Type} (buf : List α) (i : Nat) :
    Gives (index buf i) (fun b => buf[i]? = some b) := by
  rw [index]
  cases buf[i]? with
  | none => trivial
  | some b => rfl

theorem slice_gives {α : Type} (buf : List α) (a b : Nat) :
    Gives (slice buf a b) (fun s => buf.drop a = s ++ buf.drop b ∧ s.length = b - a) := by
  refine ExceptMeets.ite (fun h => ?_) fun _ => trivial
  have hcut : (buf.take b).drop a = (buf.drop a).take (b - a) := List.drop_take ..
  have hrest : buf.drop b = (buf.drop a).drop (b - a) := by
    rw [List.drop_drop]
    congr 1
    omega
  refine ⟨?_, ?_⟩
  · rw [hcut, hrest, List.take_append_drop]
  · rw [List.length_drop, List.length_take]
    omega

theorem drop_of_getElem? {α : Type} {buf : List α} {i : Nat} {b : α} (h : buf[i]? = some b) :
    buf.drop i = b :: buf.drop (i + 1) := by
  obtain ⟨hi, hb⟩ := List.getElem?_eq_some_iff.mp h
  rw [List.drop_eq_getElem_cons hi, hb]

/-- The largest length of a slice in memory (`isize::MAX`). -/
def maxSliceLen : Nat := 2 ^ 63 - 1

/-! ### Formatting -/

def hexDigit (n : Nat) : Char := if n < 10 then Char.ofNat (48 + n) else Char.ofNat (87 + n)

/-- The `digits` low hexadecimal digits of `n` (`{:02x}`, `{:016x}`). -/
def hexText : Nat → Nat → String
  | 0, _ => ""
  | digits + 1, n => hexText digits (n / 16) ++ (hexDigit (n % 16)).toString

/-- The text of a valid UTF-8 byte string. -/
def utf8Text (s : Bytes) : String := (String.fromUTF8? ⟨s.toArray⟩).getD ""

end ValkeyRdb
