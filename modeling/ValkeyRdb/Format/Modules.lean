import Mathlib.Data.List.Induction
import ValkeyRdb.Format.Strings
import ValkeyRdb.Reader.Values

/-!
# Module payloads as they are written

A module payload is a stream of values, each behind its opcode, up to an EOF opcode.
The name of a module type is packed in its ID, six bits a character.
-/

namespace ValkeyRdb

open ReadAction (Decodes DecodesWhen FailsWith AllFit lift readExact)

/-! ### Fixed-width fields -/

/-- A field of `n` bytes. -/
abbrev Raw (n : Nat) := { b : Bytes // b.length = n }

theorem Raw.decodes {n : Nat} (r : Raw n) : Decodes (readExact n : ReadM Bytes) r.val r.val :=
  ReadAction.decodes_readExact_of_length r.property

theorem Raw.decodesI64 (r : Raw 8) : Decodes readI64Le r.val (signed 64 (leVal r.val)) :=
  r.decodes.bind_pure (Decodes.pure _)

/-! ### Module IDs -/

theorem utf8Scan_ascii (bs : Bytes) (h : ∀ b ∈ bs, b < 0x80) :
    utf8Scan bs.length bs = bs.map fun b => (true, [b]) := by
  induction bs with
  | nil => rfl
  | cons b bs ih =>
    have hb : b < 0x80 := h b List.mem_cons_self
    have hhead : utf8Head b bs = (true, 1) := if_pos hb
    rw [List.length_cons, utf8Scan, hhead]
    dsimp only
    rw [List.drop_one, List.tail_cons, ih fun c hc => h c (List.mem_cons_of_mem b hc)]
    rfl

theorem fromUtf8Lossy_ascii (bs : Bytes) (h : ∀ b ∈ bs, b < 0x80) : fromUtf8Lossy bs = bs := by
  rw [fromUtf8Lossy, utf8Scan_ascii bs h, List.flatMap_map]
  simp

/-- The characters of a module name, as indices into the charset, and a version. -/
structure ModuleName where
  chars : List (Fin 64)
  version : Fin 1024
  length_eq : chars.length = 9

namespace ModuleName

def packed (chars : List (Fin 64)) : Nat := chars.foldl (fun acc c => acc * 64 + c.val) 0

def char (c : Fin 64) : UInt8 := moduleTypeNameCharset.getD c.val 0

def text (n : ModuleName) : Bytes := n.chars.map char

def id (n : ModuleName) : Nat := packed n.chars * 1024 + n.version.val

end ModuleName

theorem moduleNameLoop_packed (chars : List (Fin 64)) (name : Bytes) :
    moduleNameLoop chars.length (ModuleName.packed chars) name =
      .ok (chars.map ModuleName.char ++ name) := by
  induction chars using List.reverseRecOn generalizing name with
  | nil => rfl
  | append_singleton cs c ih =>
    have hpacked : ModuleName.packed (cs ++ [c]) = ModuleName.packed cs * 64 + c.val := by
      rw [ModuleName.packed, List.foldl_append]
      rfl
    have hlow : ModuleName.packed (cs ++ [c]) &&& 0x3F = c.val := by
      have hmod := Nat.and_two_pow_sub_one_eq_mod (ModuleName.packed (cs ++ [c])) 6
      have hlt := c.isLt
      rw [show (2 ^ 6 - 1 : Nat) = 0x3F from rfl] at hmod
      omega
    have hhigh : ModuleName.packed (cs ++ [c]) >>> 6 = ModuleName.packed cs := by
      have hlt := c.isLt
      rw [Nat.shiftRight_eq_div_pow]
      omega
    have hchar : index moduleTypeNameCharset c.val = .ok (ModuleName.char c) := by
      have hlt : c.val < moduleTypeNameCharset.length := c.isLt
      rw [index_lt hlt, ModuleName.char, List.getD_eq_getElem?_getD, List.getElem?_eq_getElem hlt,
        Option.getD_some]
    rw [List.length_append, List.length_singleton, moduleNameLoop, hlow, hhigh, hchar, ok_bind, ih]
    simp

theorem decodeModuleId_id (n : ModuleName) :
    decodeModuleId n.id = .ok (n.text, n.version.val) := by
  have hv := n.version.isLt
  have hversion : n.id &&& 0x3FF = n.version.val := by
    have hmod := Nat.and_two_pow_sub_one_eq_mod n.id 10
    rw [show (2 ^ 10 - 1 : Nat) = 0x3FF from rfl] at hmod
    rw [hmod, ModuleName.id]
    omega
  have hname : n.id >>> 10 = ModuleName.packed n.chars := by
    rw [Nat.shiftRight_eq_div_pow, ModuleName.id]
    omega
  have hascii : ∀ b ∈ n.text, b < 0x80 := by
    intro b hb
    obtain ⟨c, -, rfl⟩ := List.mem_map.mp hb
    have hall : ∀ c : Fin 64, ModuleName.char c < 0x80 := by decide +kernel
    exact hall c
  have hloop := moduleNameLoop_packed n.chars []
  rw [n.length_eq, List.append_nil] at hloop
  rw [decodeModuleId, hversion, hname, hloop, ok_bind]
  change (.ok (fromUtf8Lossy n.text, n.version.val) : Res (Bytes × Nat)) = _
  rw [fromUtf8Lossy_ascii n.text hascii]

/-! ### Items -/

/-- A value behind its opcode. -/
inductive ModuleItem where
  | sint (opcode raw : LenForm) (h : opcode.value = rdbModuleOpcodeSint)
  | uint (opcode raw : LenForm) (h : opcode.value = rdbModuleOpcodeUint)
  | float (opcode : LenForm) (raw : Raw 4) (h : opcode.value = rdbModuleOpcodeFloat)
  | double (opcode : LenForm) (raw : Raw 8) (h : opcode.value = rdbModuleOpcodeDouble)
  | string (opcode : LenForm) (s : StringForm) (h : opcode.value = rdbModuleOpcodeString)

namespace ModuleItem

def value : ModuleItem → ModuleValue
  | sint _ raw _ => .signedInt (signed 64 raw.value)
  | uint _ raw _ => .unsignedInt raw.value
  | float _ raw _ => .float (F32.ofLeBytes raw.val)
  | double _ raw _ => .double (F64.ofLeBytes raw.val)
  | string _ s _ => .string s.value

def bytes : ModuleItem → Bytes
  | sint opcode raw _ => opcode.bytes ++ raw.bytes
  | uint opcode raw _ => opcode.bytes ++ raw.bytes
  | float opcode raw _ => opcode.bytes ++ raw.val
  | double opcode raw _ => opcode.bytes ++ raw.val
  | string opcode s _ => opcode.bytes ++ s.bytes

def Fits : ModuleItem → Prop
  | string _ s _ => s.Fits
  | _ => True

/-- Bytes of the item that the reader keeps in a string. -/
def stringBytes : ModuleItem → Nat
  | string _ s _ => s.value.length
  | _ => 0

theorem bytes_ne_nil (t : ModuleItem) : t.bytes ≠ [] := by
  cases t <;> simp [bytes, LenForm.bytes_ne_nil]

theorem decodes (t : ModuleItem) :
    DecodesWhen t.Fits readModuleValue t.bytes (some t.value) := by
  cases t with
  | sint opcode raw h =>
    have hop := opcode.decodesValue
    rw [h] at hop
    exact (hop.bind (raw.decodesValue.map fun raw => some (ModuleValue.signedInt (signed 64 raw)))).when
  | uint opcode raw h =>
    have hop := opcode.decodesValue
    rw [h] at hop
    exact (hop.bind (raw.decodesValue.map fun raw => some (ModuleValue.unsignedInt raw))).when
  | float opcode raw h =>
    have hop := opcode.decodesValue
    rw [h] at hop
    exact (hop.bind (raw.decodes.map fun buf => some (ModuleValue.float (F32.ofLeBytes buf)))).when
  | double opcode raw h =>
    have hop := opcode.decodesValue
    rw [h] at hop
    exact (hop.bind (raw.decodes.map fun buf => some (ModuleValue.double (F64.ofLeBytes buf)))).when
  | string opcode s h =>
    have hop := opcode.decodesValue
    rw [h] at hop
    exact hop.bind_when (s.decodes.map fun s => some (ModuleValue.string s))

end ModuleItem

/-! ### Streams of items -/

/-- Items up to the EOF opcode. -/
structure ModuleStream where
  items : List ModuleItem
  eof : LenForm
  eof_eq : eof.value = rdbModuleOpcodeEof

def ModuleStream.bytes (m : ModuleStream) : Bytes := m.items.flatMap ModuleItem.bytes ++ m.eof.bytes

section Emit

variable {σ : Type} {emit : σ → ModuleValue → Res σ}

/-- The state of `emit` after an item that it accepts. -/
def emitted (emit : σ → ModuleValue → Res σ) (st : σ) (t : ModuleItem) : σ :=
  match emit st t.value with
  | .ok st' => st'
  | .error _ => st

/-- The item is read, and `emit` accepts its value. -/
def Emits (emit : σ → ModuleValue → Res σ) (st : σ) (t : ModuleItem) : Prop :=
  t.Fits ∧ emit st t.value = .ok (emitted emit st t)

theorem moduleRound_when (t : ModuleItem) (st : σ) :
    DecodesWhen (Emits emit st t) (moduleRound emit st) t.bytes (.inl (emitted emit st t)) := by
  have hlift : DecodesWhen (emit st t.value = .ok (emitted emit st t))
      (lift (emit st t.value) : ReadM σ) [] (emitted emit st t) := by
    refine DecodesWhen.lift (fun h => h) fun h => ?_
    rw [emitted] at h
    cases he : emit st t.value with
    | ok st' => exact absurd he (by rw [he] at h; exact fun _ => h rfl)
    | error e => exact ⟨e, rfl⟩
  have hrest := hlift.map (Sum.inl : σ → σ ⊕ σ)
  have hround : DecodesWhen _ (moduleRound emit st) (t.bytes ++ []) _ := t.decodes.bind hrest
  rwa [List.append_nil] at hround

theorem moduleRound_eof {eof : LenForm} (h : eof.value = rdbModuleOpcodeEof) (st : σ) :
    Decodes (moduleRound emit st) eof.bytes (.inr st) := by
  have hop := eof.decodesValue
  rw [h] at hop
  have hval : Decodes readModuleValue eof.bytes none := hop.bind_pure (Decodes.pure none)
  exact hval.bind_pure (Decodes.pure _)

variable (emit) in
theorem ModuleStream.decodes (m : ModuleStream) (st : σ) :
    DecodesWhen (AllFit (Emits emit) (emitted emit) st m.items) (forEachModuleValue emit st) m.bytes
      (m.items.foldl (emitted emit) st) :=
  DecodesWhen.loop (fun st => st) moduleRound_when ModuleItem.bytes_ne_nil
    (fun st => moduleRound_eof m.eof_eq st) m.items st

end Emit

theorem ModuleStream.skipped (m : ModuleStream) :
    DecodesWhen (∀ t ∈ m.items, t.Fits) skipModuleData m.bytes () := by
  have hskip := m.decodes (fun (_ : Unit) _ => .ok ()) ()
  refine hskip.congr ?_
  induction m.items with
  | nil => simp [AllFit]
  | cons t ts ih => rw [List.forall_mem_cons, ih, AllFit, Emits, emitted, eq_self, and_true]

namespace ModuleStream

def stringBytes (m : ModuleStream) : Nat := (m.items.map ModuleItem.stringBytes).sum

/-- The stream is within the caps on values and on string bytes. -/
def Fits (m : ModuleStream) : Prop :=
  (∀ t ∈ m.items, t.Fits) ∧ m.items.length ≤ maxModuleValues ∧
    m.stringBytes ≤ maxModuleStringBytes

end ModuleStream

theorem emitModuleValue_full (values : List ModuleValue) (n : Nat) (v : ModuleValue)
    (h : maxModuleValues ≤ values.length) : ∃ e, emitModuleValue (values, n) v = .error e :=
  ⟨_, if_pos h⟩

theorem emitModuleValue_item {values : List ModuleValue} {n : Nat} (t : ModuleItem)
    (hn : n ≤ maxModuleStringBytes) (h : values.length < maxModuleValues) :
    (n + t.stringBytes ≤ maxModuleStringBytes →
      emitModuleValue (values, n) t.value = .ok (values ++ [t.value], n + t.stringBytes)) ∧
    (¬n + t.stringBytes ≤ maxModuleStringBytes →
      ∃ e, emitModuleValue (values, n) t.value = .error e) := by
  have hfull : ¬values.length ≥ maxModuleValues := by omega
  have hsat : maxModuleStringBytes < 2 ^ 64 - 1 := by decide
  cases t with
  | string opcode s hop =>
    change (_ → (if _ ≥ _ then _ else if min (n + s.value.length) _ > _ then _ else _ : Res _) = _) ∧
      (_ → ∃ e, (if _ ≥ _ then _ else if min (n + s.value.length) _ > _ then _ else _ : Res _) = _)
    rw [if_neg hfull, ModuleItem.stringBytes]
    refine ⟨fun hle => ?_, fun hgt => ⟨_, if_pos (by omega)⟩⟩
    have hmin : min (n + s.value.length) (2 ^ 64 - 1) = n + s.value.length := by omega
    rw [hmin, if_neg (by omega)]
  | sint opcode raw hop => exact ⟨fun _ => if_neg hfull, fun hgt => absurd hn hgt⟩
  | uint opcode raw hop => exact ⟨fun _ => if_neg hfull, fun hgt => absurd hn hgt⟩
  | float opcode raw hop => exact ⟨fun _ => if_neg hfull, fun hgt => absurd hn hgt⟩
  | double opcode raw hop => exact ⟨fun _ => if_neg hfull, fun hgt => absurd hn hgt⟩

/-- An item is accepted while both caps leave room for it. -/
theorem emits_iff {values : List ModuleValue} {n : Nat} (t : ModuleItem)
    (hn : n ≤ maxModuleStringBytes) :
    Emits emitModuleValue (values, n) t ↔
      t.Fits ∧ values.length < maxModuleValues ∧ n + t.stringBytes ≤ maxModuleStringBytes := by
  refine and_congr_right fun _ => ?_
  by_cases hroom : values.length < maxModuleValues
  · obtain ⟨hok, herr⟩ := emitModuleValue_item t hn hroom
    by_cases hbytes : n + t.stringBytes ≤ maxModuleStringBytes
    · simp [emitted, hok hbytes, hroom, hbytes]
    · obtain ⟨e, he⟩ := herr hbytes
      simp [he, hbytes]
  · obtain ⟨e, he⟩ := emitModuleValue_full values n t.value
      (Nat.le_of_not_lt hroom)
    simp [he, hroom]

theorem emitted_item {values : List ModuleValue} {n : Nat} {t : ModuleItem}
    (hn : n ≤ maxModuleStringBytes) (h : Emits emitModuleValue (values, n) t) :
    emitted emitModuleValue (values, n) t = (values ++ [t.value], n + t.stringBytes) := by
  obtain ⟨-, hroom, hbytes⟩ := (emits_iff t hn).mp h
  rw [emitted, (emitModuleValue_item t hn hroom).1 hbytes]

theorem allFit_emits (items : List ModuleItem) (values : List ModuleValue) (n : Nat)
    (hn : n ≤ maxModuleStringBytes) (hv : values.length ≤ maxModuleValues) :
    AllFit (Emits emitModuleValue) (emitted emitModuleValue) (values, n) items ↔
      (∀ t ∈ items, t.Fits) ∧ values.length + items.length ≤ maxModuleValues ∧
        n + (items.map ModuleItem.stringBytes).sum ≤ maxModuleStringBytes := by
  induction items generalizing values n with
  | nil => simp [AllFit, hn, hv]
  | cons t ts ih =>
    rw [AllFit, List.forall_mem_cons, List.length_cons, List.map_cons, List.sum_cons]
    by_cases h : Emits emitModuleValue (values, n) t
    · obtain ⟨hfits, hroom, hbytes⟩ := (emits_iff t hn).mp h
      have hlen : (values ++ [t.value]).length = values.length + 1 := by simp
      rw [emitted_item hn h, ih _ _ hbytes (by omega), hlen]
      constructor
      · rintro ⟨-, hts, hcount, hsum⟩
        exact ⟨⟨hfits, hts⟩, by omega, by omega⟩
      · rintro ⟨⟨-, hts⟩, hcount, hsum⟩
        exact ⟨h, hts, by omega, by omega⟩
    · refine iff_of_false (fun h' => h h'.1) ?_
      rintro ⟨⟨hfits, -⟩, hcount, hsum⟩
      exact h ((emits_iff t hn).mpr ⟨hfits, by omega, by omega⟩)

theorem foldl_emitted (items : List ModuleItem) (values : List ModuleValue) (n : Nat)
    (hn : n ≤ maxModuleStringBytes)
    (h : AllFit (Emits emitModuleValue) (emitted emitModuleValue) (values, n) items) :
    (items.foldl (emitted emitModuleValue) (values, n)).1 =
      values ++ items.map ModuleItem.value := by
  induction items generalizing values n with
  | nil => simp
  | cons t ts ih =>
    obtain ⟨ht, hts⟩ := h
    obtain ⟨-, -, hbytes⟩ := (emits_iff t hn).mp ht
    rw [emitted_item hn ht] at hts
    rw [List.foldl_cons, emitted_item hn ht, ih _ _ hbytes hts, List.map_cons, List.append_assoc]
    rfl

theorem ModuleStream.decodesData (m : ModuleStream) :
    DecodesWhen m.Fits readModuleData m.bytes (m.items.map ModuleItem.value) := by
  have hfit := allFit_emits m.items [] 0 (Nat.zero_le _) (Nat.zero_le _)
  rw [List.length_nil, Nat.zero_add, Nat.zero_add] at hfit
  have hloop := (m.decodes emitModuleValue ([], 0)).map Prod.fst
  have hdata : DecodesWhen _ readModuleData m.bytes _ := hloop.congr hfit.symm
  refine ⟨fun h => ?_, hdata.fails⟩
  have hvalues := foldl_emitted m.items [] 0 (Nat.zero_le _) (hfit.mpr h)
  rw [List.nil_append] at hvalues
  rw [← hvalues]
  exact hdata.decodes h

/-! ### Module values -/

structure ModuleForm where
  name : ModuleName
  id : LenForm
  id_eq : id.value = name.id
  stream : ModuleStream

namespace ModuleForm

def value (f : ModuleForm) : ModuleData :=
  ⟨f.name.text, f.name.version.val, f.stream.items.map ModuleItem.value⟩

def bytes (f : ModuleForm) : Bytes := f.id.bytes ++ f.stream.bytes

def Fits (f : ModuleForm) : Prop := f.stream.Fits

theorem decodes (f : ModuleForm) :
    DecodesWhen f.Fits (readValue rdbTypeModule2) f.bytes (.module f.value) := by
  have hid := f.id.decodesValue
  rw [f.id_eq] at hid
  have hname : Decodes (lift (decodeModuleId f.name.id) : ReadM (Bytes × Nat)) []
      (f.name.text, f.name.version.val) := Decodes.lift (decodeModuleId_id f.name)
  have hdata := f.stream.decodesData.map fun values =>
    RdbValue.module ⟨f.name.text, f.name.version.val, values⟩
  have hrest := hname.bind_when (f := fun nv => do
    let values ← readModuleData
    pure (RdbValue.module ⟨nv.1, nv.2, values⟩)) hdata
  exact hid.bind_when hrest

end ModuleForm

end ValkeyRdb
