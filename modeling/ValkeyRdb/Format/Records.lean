import ValkeyRdb.Format.Opcodes

/-!
# Records as they are written

A reader in front of a record either passes it, with items and a context that do not
depend on what follows, or stops in it. Which of the two happens is decided by the caps.
-/

namespace ValkeyRdb

open ReadAction (Decodes DecodesWhen FailsWith)
open StateAction (Rounds run_bind_ok run_bind_error)

/-! ### What one record leaves for the next -/

/-- The database and the pending hints. -/
structure Context where
  db : Nat
  pending : Option Int × Option Nat × Option UInt8

def Context.start : Context := ⟨0, none, none, none⟩

def Context.keyed (c : Context) : Context := ⟨c.db, none, none, none⟩

def RdbReader.context (r : RdbReader) : Context := ⟨r.currentDb, r.pending⟩

def Opcode.next (o : Opcode) (c : Context) : Context :=
  match o with
  | selectDb db _ => { c with db := db.value }
  | expireTimeMs ms _ => { c with pending := (some ms, c.pending.2) }
  | expireTime secs _ => { c with pending := (some (secs * 1000), c.pending.2) }
  | idle secs => { c with pending := (c.pending.1, some secs.value, c.pending.2.2) }
  | freq f => { c with pending := (c.pending.1, c.pending.2.1, some f) }
  | _ => c

/-- A reader between two records, in front of `input`. -/
structure RdbReader.At (r : RdbReader) (c : Context) (limit : Option ℕ+) (input : Bytes) : Prop
    extends r.Between where
  context : r.context = c
  maxKeyElements : r.maxKeyElements = limit
  inner : r.reader.inner = input

/-- In front of `b` the reader yields `group` and gets behind `b`, whatever follows. -/
def Passes (limit : Option ℕ+) (c : Context) (b : Bytes) (group : List (Res RdbEntry))
    (c' : Context) : Prop :=
  ∀ r rest, r.At c limit (b ++ rest) → ∃ r', r'.At c' limit rest ∧ r'.header = r.header ∧
    r'.reader.crc = crc64 r.reader.crc b ∧
    ∀ items s, Yields RdbReader.next r' items s → Yields RdbReader.next r (group ++ items) s

/-- In front of `b` the reader yields `items` and ends, whatever follows. -/
def Stops (limit : Option ℕ+) (c : Context) (b : Bytes) (items : List (Res RdbEntry)) : Prop :=
  ∀ r rest, r.At c limit (b ++ rest) → ∃ r', Yields RdbReader.next r items r'

/-- A record is passed if `fits` holds; if not, it ends the iteration with an error. -/
structure RecordWhen (fits : Prop) (limit : Option ℕ+) (c : Context) (b : Bytes)
    (c' : Context) : Prop where
  passes : fits → ∃ group, (∀ x ∈ group, ¬Terminal x) ∧ Passes limit c b group c'
  stops : ¬fits → ∃ items x, Terminal x ∧ Stops limit c b (items ++ [x])

theorem yields_terminal {r r' : RdbReader} {x : Res RdbEntry} (h : r.next = (some x, r'))
    (hx : Terminal x) : Yields RdbReader.next r [x] r' :=
  Yields.cons h (Yields.nil (next_finished (next_terminal h hx)))

theorem Passes.trans {limit : Option ℕ+} {c c' c'' : Context} {b b' : Bytes}
    {group group' : List (Res RdbEntry)} (h : Passes limit c b group c')
    (h' : Passes limit c' b' group' c'') : Passes limit c (b ++ b') (group ++ group') c'' := by
  intro r rest hr
  rw [List.append_assoc] at hr
  obtain ⟨r₁, hr₁, hheader, hcrc, hy⟩ := h r (b' ++ rest) hr
  obtain ⟨r₂, hr₂, hheader', hcrc', hy'⟩ := h' r₁ rest hr₁
  refine ⟨r₂, hr₂, hheader'.trans hheader, ?_, fun items s hs => ?_⟩
  · rw [hcrc', hcrc, crc64_append]
  · rw [List.append_assoc]
    exact hy _ _ (hy' _ _ hs)

theorem Passes.nil (limit : Option ℕ+) (c : Context) : Passes limit c [] [] c :=
  fun r _ hr => ⟨r, hr, rfl, rfl, fun _ _ hs => hs⟩

theorem Passes.stops {limit : Option ℕ+} {c c' : Context} {b b' : Bytes}
    {group items : List (Res RdbEntry)} (h : Passes limit c b group c')
    (h' : Stops limit c' b' items) : Stops limit c (b ++ b') (group ++ items) := by
  intro r rest hr
  rw [List.append_assoc] at hr
  obtain ⟨r₁, hr₁, -, -, hy⟩ := h r (b' ++ rest) hr
  obtain ⟨s, hs⟩ := h' r₁ rest hr₁
  exact ⟨s, hy _ _ hs⟩

theorem Stops.append {limit : Option ℕ+} {c : Context} {b : Bytes} {items : List (Res RdbEntry)}
    (h : Stops limit c b items) (b' : Bytes) : Stops limit c (b ++ b') items := by
  intro r rest hr
  rw [List.append_assoc] at hr
  exact h r (b' ++ rest) hr

/-! ### Opcode records -/

structure Opcode.Keeps (r r' : RdbReader) : Prop where
  reader : r'.reader = r.reader
  header : r'.header = r.header
  preambleByte : r'.preambleByte = r.preambleByte
  finished : r'.finished = r.finished
  maxKeyElements : r'.maxKeyElements = r.maxKeyElements
  chunked : r'.chunked = r.chunked

theorem Opcode.effect_keeps (o : Opcode) (r : RdbReader) : Opcode.Keeps r (o.effect r) := by
  cases o <;> exact ⟨rfl, rfl, rfl, rfl, rfl, rfl⟩

theorem Opcode.effect_context (o : Opcode) (r : RdbReader) :
    (o.effect r).context = o.next r.context := by
  cases o <;> rfl

theorem Opcode.passes (o : Opcode) (hfit : o.Fits) (limit : Option ℕ+) (c : Context) :
    Passes limit c o.bytes [] (o.next c) := by
  intro r rest hr
  have hstep := o.arm.step.1 hfit r rest hr.preambleByte hr.inner
  have hk := o.effect_keeps (r.past o.bytes rest)
  have hcontext := o.effect_context (r.past o.bytes rest)
  have hchunked := hk.chunked.trans hr.chunked
  refine ⟨o.effect (r.past o.bytes rest), ⟨⟨?_, ?_, hchunked⟩, ?_, ?_, ?_⟩, ?_, ?_, ?_⟩
  · exact hk.preambleByte.trans hr.preambleByte
  · exact hk.finished.trans hr.finished
  · exact hcontext.trans (congrArg o.next hr.context)
  · exact hk.maxKeyElements.trans hr.maxKeyElements
  · rw [hk.reader]
    rfl
  · rw [hk.header]
    rfl
  · rw [hk.reader]
    rfl
  · intro items s hs
    have hnext := next_rounds (.head hstep (.refl _)) hr.finished hr.chunked hchunked
    exact hs.of_next hnext

theorem ArmWhen.stops {fits : Prop} {byte : UInt8} {b : Bytes} {x : Option (Option RdbEntry)}
    {effect : RdbReader → RdbReader} (h : ArmWhen fits (opcodeArm byte) b x effect) (hfit : ¬fits)
    (limit : Option ℕ+) (c : Context) :
    ∃ f, Terminal (.error f) ∧ Stops limit c (byte :: b) [.error f] := by
  obtain ⟨f, ht, hf⟩ := h.step.2 hfit
  refine ⟨f, ht, fun r rest hr => ?_⟩
  obtain ⟨r', hstep⟩ := hf r rest hr.preambleByte hr.inner
  have hinner : nextInner r = (.error f, r') := by
    rw [nextInner_unchunked hr.chunked]
    exact StateAction.loop_error hstep
  rcases next_error hr.finished hinner with ⟨hno, -⟩ | ⟨-, hn⟩
  · exact absurd ht hno
  · exact ⟨_, yields_terminal hn ht⟩

theorem Opcode.stops (o : Opcode) (hfit : ¬o.Fits) (limit : Option ℕ+) (c : Context) :
    ∃ f, Terminal (.error f) ∧ Stops limit c o.bytes [.error f] :=
  o.arm.stops hfit limit c

/-! ### Objects -/

theorem nextInner_object {r : RdbReader} {b : UInt8} (rest : Bytes) (hr : r.Between)
    (hb : isObjectType b = true) (hi : r.reader.inner = b :: rest) :
    nextInner r = match readEntry b (r.past [b] rest) with
      | (.ok e, r') => (.ok (some e), r')
      | (.error f, r') => (.error f, r') := by
  have hopcode : readOpcode r = (.ok b, r.past [b] rest) := readOpcode_cons hr.preambleByte hi
  have harm := opcodeArm_object hb
  rw [nextInner_unchunked hr.chunked]
  rcases he : readEntry b (r.past [b] rest) with ⟨f | e, r'⟩
  · have hobject : opcodeArm b (r.past [b] rest) = (.error f, r') := by
      rw [harm]
      exact run_bind_error he
    exact opcodeLoop_error (.refl r) hopcode hobject
  · have hobject : opcodeArm b (r.past [b] rest) = (.ok (some (some e)), r') := by
      rw [harm]
      exact run_bind_ok he
    exact opcodeLoop_done (.refl r) hopcode hobject

theorem next_object {r r' : RdbReader} {b : UInt8} {rest : Bytes} {e : RdbEntry}
    (hr : r.Between) (hb : isObjectType b = true) (hi : r.reader.inner = b :: rest)
    (he : readEntry b (r.past [b] rest) = (.ok e, r')) : r.next = (some (.ok e), r') := by
  refine next_entry hr.finished ?_
  rw [nextInner_object rest hr hb hi, he]

theorem next_object_fault {r r' : RdbReader} {b : UInt8} {rest : Bytes} {f : Fault}
    (hr : r.Between) (hb : isObjectType b = true) (hi : r.reader.inner = b :: rest)
    (he : readEntry b (r.past [b] rest) = (.error f, r')) (ht : Terminal (.error f)) :
    ∃ r'', Yields RdbReader.next r [.error f] r'' := by
  have hinner : nextInner r = (.error f, r') := by rw [nextInner_object rest hr hb hi, he]
  rcases next_error hr.finished hinner with ⟨hno, -⟩ | ⟨-, hn⟩
  · exact absurd ht hno
  · exact ⟨_, yields_terminal hn ht⟩

end ValkeyRdb
