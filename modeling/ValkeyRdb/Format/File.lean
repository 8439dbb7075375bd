import Mathlib.Data.List.Forall2
import ValkeyRdb.Format.Objects
import ValkeyRdb.Reader.Checksum

/-!
# Files as they are written

A file is a header, records, the EOF opcode and a trailer. Which entries it stands for is
said of the records alone: the hints of a key are the latest ones since the key before it.
-/

namespace ValkeyRdb

open ReadAction (Decodes DecodesWhen FailsWith)
open StateAction (Rounds run_bind_ok run_bind_error bind_eq_error)

/-! ### Records of every kind -/

inductive Record where
  | opcode (o : Opcode)
  | key (k : KeyForm)
  | zipmap (name content : StringForm)
  | functionPreGa (payload : Bytes)
  | modulePreGa (name : StringForm) (payload : Bytes)

/-- The error for an object that is skipped. -/
abbrev zipmapFault : Fault := .error (.unknownType rdbTypeHashZipmap)

namespace Record

def bytes : Record → Bytes
  | opcode o => o.bytes
  | key k => k.bytes
  | zipmap name content => rdbTypeHashZipmap :: (name.bytes ++ content.bytes)
  | functionPreGa payload => rdbOpcodeFunctionPreGa :: payload
  | modulePreGa name payload => rdbTypeModulePreGa :: (name.bytes ++ payload)

/-- The reader gets behind the record. -/
def Fits : Record → Prop
  | opcode o => o.Fits
  | key k => k.Fits
  | zipmap name content => name.Fits ∧ content.Fits
  | functionPreGa _ => False
  | modulePreGa _ _ => False

/-- The kinds of records that the reader supports. -/
def Supported : Record → Prop
  | opcode _ => True
  | key _ => True
  | _ => False

def next (t : Record) (c : Context) : Context :=
  match t with
  | opcode o => o.next c
  | key _ => c.keyed
  | zipmap _ _ => c.keyed
  | _ => c

end Record

theorem readEntry_unsupported {b : UInt8} {key : StringForm} (hkey : key.Fits)
    (hp : isPlainType b = false) {c : Context} {limit : Option ℕ+} {r : RdbReader}
    {payload rest : Bytes} (hr : r.At c limit (b :: (key.bytes ++ payload) ++ rest)) :
    readEntry b (r.past [b] (key.bytes ++ payload ++ rest)) =
      readWholeEntry c.db b c.pending key.value (r.past (b :: key.bytes) (payload ++ rest)).cleared := by
  have hpending : r.pending = c.pending := congrArg Context.pending hr.context
  have hdb : r.currentDb = c.db := congrArg Context.db hr.context
  have hread := readEntry_key (b := b) (r := r.past [b] (key.bytes ++ payload ++ rest))
    (payload ++ rest) hkey (List.append_assoc _ _ _)
  rw [hread, past_past, readEntryValue_notPlain hp, ← hpending, ← hdb]
  rfl

theorem zipmap_passes {key content : StringForm} (hkey : key.Fits) (hcontent : content.Fits)
    (limit : Option ℕ+) (c : Context) :
    Passes limit c (Record.zipmap key content).bytes [.error zipmapFault] c.keyed := by
  intro r rest hr
  have hread := readEntry_unsupported hkey (b := rdbTypeHashZipmap) rfl hr
  have hvalue : (readValue rdbTypeHashZipmap).run
      (r.past (rdbTypeHashZipmap :: key.bytes) (content.bytes ++ rest)).reader =
      (.error zipmapFault, ((r.past (rdbTypeHashZipmap :: key.bytes) (content.bytes ++ rest)).past
        content.bytes rest).reader) := by
    have hblob := (content.decodes.decodes hcontent).run rest
      (r.past (rdbTypeHashZipmap :: key.bytes) (content.bytes ++ rest)).reader.crc
    exact ReadAction.run_bind_ok hblob
  have hfault := readWholeEntry_error c.db c.pending key.value
    (r := (r.past (rdbTypeHashZipmap :: key.bytes) (content.bytes ++ rest)).cleared) hvalue
  rw [← hread, past_past] at hfault
  have hinner := nextInner_object (key.bytes ++ content.bytes ++ rest) hr.toBetween
    (b := rdbTypeHashZipmap) rfl hr.inner
  rw [hfault] at hinner
  rcases next_error hr.finished hinner with ⟨-, hn⟩ | ⟨hno, -⟩
  · have hat : r.At c limit ((rdbTypeHashZipmap :: (key.bytes ++ content.bytes)) ++ rest) := hr
    exact ⟨_, At.cleared hat, rfl, rfl, fun items s hs => Yields.cons hn hs⟩
  · exact hno.elim

theorem zipmap_stops {key content : StringForm} (h : ¬(key.Fits ∧ content.Fits))
    (limit : Option ℕ+) (c : Context) : ∃ f, Terminal (.error f) ∧
      Stops limit c (Record.zipmap key content).bytes [.error f] := by
  by_cases hkey : key.Fits
  · obtain ⟨f, hf⟩ := content.decodes.fails fun hcontent => h ⟨hkey, hcontent⟩
    have ht := terminal_of_fails readString_returns hf
    refine ⟨f, ht, stops_object (b := rdbTypeHashZipmap) rfl ht fun r rest hr => ?_⟩
    have hread := readEntry_unsupported hkey (b := rdbTypeHashZipmap) rfl hr
    have hvalue := hf.bind (f := fun _ => (ReadAction.lift (.error zipmapFault) : ReadM RdbValue)) rest
      (r.past (rdbTypeHashZipmap :: key.bytes) (content.bytes ++ rest)).reader.crc
    rw [hread]
    exact ⟨_, readWholeEntry_error _ _ _ (Prod.ext hvalue rfl)⟩
  · exact stops_key limit c content.bytes (b := rdbTypeHashZipmap) rfl hkey

theorem modulePreGa_stops (key : StringForm) (payload : Bytes) (limit : Option ℕ+)
    (c : Context) : ∃ f, Terminal (.error f) ∧
      Stops limit c (Record.modulePreGa key payload).bytes [.error f] := by
  by_cases hkey : key.Fits
  · refine ⟨.error (.corruptData "MODULE_PRE_GA (type 6) is not supported"), trivial,
      stops_object (b := rdbTypeModulePreGa) rfl trivial fun r rest hr => ?_⟩
    rw [readEntry_unsupported hkey (b := rdbTypeModulePreGa) rfl hr]
    exact ⟨_, readWholeEntry_error _ _ _ rfl⟩
  · exact stops_key limit c payload (b := rdbTypeModulePreGa) rfl hkey

theorem functionPreGa_stops (payload : Bytes) (limit : Option ℕ+) (c : Context) :
    ∃ f, Terminal (.error f) ∧ Stops limit c (Record.functionPreGa payload).bytes [.error f] := by
  have harm : ArmWhen False (opcodeArm rdbOpcodeFunctionPreGa) payload none id :=
    ⟨False.elim, fun _ => ⟨.error (.corruptData "FUNCTION_PRE_GA opcode is not supported"), trivial,
      fun r _ _ => ⟨r, rfl⟩⟩⟩
  exact harm.stops id limit c

theorem Record.recordWhen (t : Record) (limit : Option ℕ+) (c : Context) :
    RecordWhen t.Fits limit c t.bytes (t.next c) := by
  cases t with
  | opcode o =>
    refine ⟨fun hfit => ⟨[], fun x hx => absurd hx List.not_mem_nil, o.passes hfit limit c⟩,
      fun hfit => ?_⟩
    obtain ⟨f, ht, hf⟩ := o.stops hfit limit c
    exact ⟨[], .error f, ht, hf⟩
  | key k => exact k.recordWhen limit c
  | zipmap key content =>
    refine ⟨fun hfit => ⟨_, fun x hx => ?_, zipmap_passes hfit.1 hfit.2 limit c⟩, fun hfit => ?_⟩
    · rw [List.mem_singleton] at hx
      subst hx
      exact fun h => h
    · obtain ⟨f, ht, hf⟩ := zipmap_stops hfit limit c
      exact ⟨[], .error f, ht, hf⟩
  | functionPreGa payload =>
    obtain ⟨f, ht, hf⟩ := functionPreGa_stops payload limit c
    exact ⟨False.elim, fun _ => ⟨[], .error f, ht, hf⟩⟩
  | modulePreGa key payload =>
    obtain ⟨f, ht, hf⟩ := modulePreGa_stops key payload limit c
    exact ⟨False.elim, fun _ => ⟨[], .error f, ht, hf⟩⟩

/-! ### Sequences of records -/

def recordBytes (records : List Record) : Bytes := records.flatMap Record.bytes

theorem recordBytes_cons (t : Record) (ts : List Record) :
    recordBytes (t :: ts) = t.bytes ++ recordBytes ts := List.flatMap_cons

def contextAfter (c : Context) (records : List Record) : Context :=
  records.foldl (fun c t => t.next c) c

theorem recordsWhen (records : List Record) (limit : Option ℕ+) (c : Context) :
    RecordWhen (∀ t ∈ records, t.Fits) limit c (recordBytes records) (contextAfter c records) := by
  induction records generalizing c with
  | nil =>
    refine ⟨fun _ => ⟨[], fun x hx => absurd hx List.not_mem_nil, Passes.nil limit c⟩,
      fun hno => absurd (fun t ht => absurd ht List.not_mem_nil) hno⟩
  | cons t ts ih =>
    have hrecord := t.recordWhen limit c
    have hrest := ih (t.next c)
    rw [recordBytes_cons, List.forall_mem_cons]
    constructor
    · intro hfit
      obtain ⟨group, hgroup, hpass⟩ := hrecord.passes hfit.1
      obtain ⟨groups, hgroups, hpass'⟩ := hrest.passes hfit.2
      exact ⟨group ++ groups, List.forall_mem_append.mpr ⟨hgroup, hgroups⟩, hpass.trans hpass'⟩
    · intro hfit
      by_cases ht : t.Fits
      · obtain ⟨group, -, hpass⟩ := hrecord.passes ht
        obtain ⟨items, x, hx, hstop⟩ := hrest.stops fun h => hfit ⟨ht, h⟩
        refine ⟨group ++ items, x, hx, ?_⟩
        rw [List.append_assoc]
        exact hpass.stops hstop
      · obtain ⟨items, x, hx, hstop⟩ := hrecord.stops ht
        exact ⟨items, x, hx, hstop.append _⟩

def lastDb : List Record → Nat
  | [] => 0
  | .opcode (.selectDb db _) :: _ => db.value
  | _ :: past => lastDb past

/-- The latest hint of a kind since the latest key. -/
def lastHint {α : Type} (hint : Opcode → Option α) : List Record → Option α
  | [] => none
  | .opcode o :: past => (hint o).or (lastHint hint past)
  | .key _ :: _ => none
  | .zipmap _ _ :: _ => none
  | _ :: past => lastHint hint past

def expiryHint : Opcode → Option Int
  | .expireTimeMs ms _ => some ms
  | .expireTime secs _ => some (secs * 1000)
  | _ => none

def idleHint : Opcode → Option Nat
  | .idle secs => some secs.value
  | _ => none

def freqHint : Opcode → Option UInt8
  | .freq f => some f
  | _ => none

/-- The context that the past of a record says. -/
def pastContext (past : List Record) : Context :=
  ⟨lastDb past, lastHint expiryHint past, lastHint idleHint past, lastHint freqHint past⟩

theorem pastContext_cons (t : Record) (past : List Record) :
    pastContext (t :: past) = t.next (pastContext past) := by
  cases t with
  | opcode o => cases o <;> rfl
  | key k => rfl
  | zipmap key content => rfl
  | functionPreGa payload => rfl
  | modulePreGa key payload => rfl

def entries (past : List Record) : List Record → List RdbEntry
  | [] => []
  | .key k :: ts => k.entry (pastContext past) :: entries (.key k :: past) ts
  | t :: ts => entries (t :: past) ts

/-- The items in the place of records, a skipped object included. -/
def recordItems (past : List Record) : List Record → List (Res RdbEntry)
  | [] => []
  | .key k :: ts => .ok (k.entry (pastContext past)) :: recordItems (.key k :: past) ts
  | .zipmap name content :: ts => .error zipmapFault :: recordItems (.zipmap name content :: past) ts
  | t :: ts => recordItems (t :: past) ts

theorem recordItems_passes (past : List Record) {records : List Record}
    (hfit : ∀ t ∈ records, t.Fits) :
    Passes none (pastContext past) (recordBytes records) (recordItems past records)
      (contextAfter (pastContext past) records) := by
  induction records generalizing past with
  | nil => exact Passes.nil none _
  | cons t ts ih =>
    rw [List.forall_mem_cons] at hfit
    have hrest := ih (t :: past) hfit.2
    rw [pastContext_cons] at hrest
    rw [recordBytes_cons]
    cases t with
    | opcode o => exact (o.passes hfit.1 none (pastContext past)).trans hrest
    | key k =>
      have hwhole := k.recordWhen_whole hfit.1.1 none (pastContext past)
        fun r hr => readEntryValue_unchunked hr _ _ _
      exact (hwhole.1 hfit.1.2).trans hrest
    | zipmap key content =>
      exact (zipmap_passes hfit.1.1 hfit.1.2 none (pastContext past)).trans hrest
    | functionPreGa payload => exact hfit.1.elim
    | modulePreGa key payload => exact hfit.1.elim

theorem recordItems_supported (past : List Record) {records : List Record}
    (hs : ∀ t ∈ records, t.Supported) :
    recordItems past records = (entries past records).map .ok := by
  induction records generalizing past with
  | nil => rfl
  | cons t ts ih =>
    rw [List.forall_mem_cons] at hs
    have hrest := ih (t :: past) hs.2
    cases t with
    | opcode o => exact hrest
    | key k => exact congrArg (List.cons (.ok (k.entry (pastContext past)))) hrest
    | zipmap key content => exact hs.1.elim
    | functionPreGa payload => exact hs.1.elim
    | modulePreGa key payload => exact hs.1.elim

theorem entries_passes (past : List Record) {records : List Record} (hs : ∀ t ∈ records, t.Supported)
    (hfit : ∀ t ∈ records, t.Fits) :
    Passes none (pastContext past) (recordBytes records) ((entries past records).map .ok)
      (contextAfter (pastContext past) records) := by
  rw [← recordItems_supported past hs]
  exact recordItems_passes past hfit

end ValkeyRdb
