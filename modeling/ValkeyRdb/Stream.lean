import ValkeyRdb.Listpack

/-!
# Stream listpack decoder (stream.rs)

Master entry `[count][deleted][num_fields][field1]...[fieldN][0]`, then for each entry
`[flags][ms_delta][seq_delta][field-value pairs][lp_count]`; IDs are deltas from the
master ID. Positions are checked against the number of elements before each access, so
a plain `pos + 1` after one stays in range.
-/

namespace ValkeyRdb.Stream

/-- stream.rs:25 -/
def maxStreamEntries : Nat := 5000000

/-- stream.rs:28-38 -/
def lpU64 (entry : CompactEntry) (ctx : String) : Res Nat :=
  match entry with
  | .int n =>
    if 0 ≤ n then .ok n.toNat
    else corrupt s!"stream {ctx}: expected non-negative integer, got {n}"
  | .str _ => corrupt s!"stream {ctx}: expected integer"

/-- stream.rs:41-45 -/
def lpUsize (entry : CompactEntry) (ctx : String) : Res Nat := do
  let v ← lpU64 entry ctx
  if v < 2 ^ 64 then pure v else corrupt s!"stream {ctx}: value {v} overflows usize"

/-- stream.rs:48-52 -/
def lpU32 (entry : CompactEntry) (ctx : String) : Res Nat := do
  let v ← lpU64 entry ctx
  if v < 2 ^ 32 then pure v else corrupt s!"stream {ctx}: value {v} overflows u32"

/-- The master fields from position `pos` and the position after them
(stream.rs:86-96). -/
def readMasterFields (lp : List CompactEntry) : Nat → Nat → Res (List Bytes × Nat)
  | 0, pos => .ok ([], pos)
  | n + 1, pos =>
    if pos ≥ lp.length then corrupt "stream: truncated master fields"
    else do
      let field := (← index lp pos).intoBytes
      let (fields, pos) ← readMasterFields lp n (pos + 1)
      pure (field :: fields, pos)

/-- The values of a SAMEFIELDS entry, paired with the master fields
(stream.rs:139-151). -/
def readSameFields (lp : List CompactEntry) : List Bytes → Nat → Res (List (Bytes × Bytes) × Nat)
  | [], pos => .ok ([], pos)
  | mf :: mfs, pos =>
    if pos ≥ lp.length then corrupt "stream: truncated SAMEFIELDS entry"
    else do
      let val := (← index lp pos).intoBytes
      let (fv, pos) ← readSameFields lp mfs (pos + 1)
      pure ((mf, val) :: fv, pos)

/-- The `nf` field/value pairs of an entry with its own fields (stream.rs:161-173). -/
def readPairs (lp : List CompactEntry) : Nat → Nat → Res (List (Bytes × Bytes) × Nat)
  | 0, pos => .ok ([], pos)
  | n + 1, pos => do
    let next ← add64 pos 1
    if next ≥ lp.length then corrupt "stream: truncated field-value pair"
    else
      let field := (← index lp pos).intoBytes
      let val := (← index lp next).intoBytes
      let (fv, pos) ← readPairs lp n (next + 1)
      pure ((field, val) :: fv, pos)

/-- stream.rs:138-174 -/
def readFieldValues (lp : List CompactEntry) (masterFields : List Bytes) (sameFields : Bool)
    (pos : Nat) : Res (List (Bytes × Bytes) × Nat) :=
  if sameFields then readSameFields lp masterFields pos
  else if pos ≥ lp.length then corrupt "stream: truncated entry num_fields"
  else do
    let nf ← lpUsize (← index lp pos) "entry num_fields"
    readPairs lp nf (pos + 1)

/-- `checked_add` with its error (stream.rs:130-135). -/
def addDelta (base delta : Nat) (msg : String) : Res Nat :=
  if base + delta < 2 ^ 64 then .ok (base + delta) else corrupt msg

/-- One record from position `pos`: whether it is deleted, the entry, and the position
after it (stream.rs:111-181). -/
def decodeRecord (masterMs masterSeq : Nat) (lp : List CompactEntry) (masterFields : List Bytes)
    (pos : Nat) : Res (Bool × StreamEntry × Nat) := do
  let ahead ← add64 pos 2
  if ahead ≥ lp.length then corrupt "stream listpack truncated mid-entry"
  else
    let flags ← lpU32 (← index lp pos) "flags"
    let msDelta ← lpU64 (← index lp (pos + 1)) "ms_delta"
    let seqDelta ← lpU64 (← index lp (pos + 2)) "seq_delta"
    let isDeleted := flags &&& 1 ≠ 0
    let sameFields := flags &&& 2 ≠ 0
    let entryMs ← addDelta masterMs msDelta "stream: ms overflow"
    let entrySeq ← addDelta masterSeq seqDelta "stream: seq overflow"
    let entryId := s!"{entryMs}-{entrySeq}"
    let (fieldValues, pos) ← readFieldValues lp masterFields sameFields (pos + 3)
    if pos ≥ lp.length then corrupt "stream: missing lp_count after entry"
    else
      let _lpCount ← lpU64 (← index lp pos) "lp_count"
      pure (isDeleted, ⟨entryId, fieldValues⟩, pos + 1)

/-- The record loop with the entries kept so far (stream.rs:111-193). -/
def decodeRecords (masterMs masterSeq : Nat) (lp : List CompactEntry) (masterFields : List Bytes)
    (remainingBudget : Nat) : Nat → Nat → List StreamEntry → Res (List StreamEntry × Nat)
  | 0, pos, entries => .ok (entries, pos)
  | total + 1, pos, entries => do
    let (isDeleted, entry, pos) ← decodeRecord masterMs masterSeq lp masterFields pos
    if isDeleted then
      decodeRecords masterMs masterSeq lp masterFields remainingBudget total pos entries
    else if entries.length ≥ remainingBudget then
      corrupt s!"stream exceeds {maxStreamEntries} entry limit"
    else
      decodeRecords masterMs masterSeq lp masterFields remainingBudget total pos (entries ++ [entry])

/-- The decoder after `listpack::decode` (stream.rs:67-214). -/
def decodeElements (masterMs masterSeq : Nat) (lp : List CompactEntry) (remainingBudget : Nat) :
    Res (List StreamEntry) :=
  if lp.length < 3 then corrupt "stream listpack too short for header"
  else do
    let count ← lpU64 (← index lp 0) "count"
    let deleted ← lpU64 (← index lp 1) "deleted"
    let numMasterFields ← lpUsize (← index lp 2) "num_fields"
    let (masterFields, pos) ← readMasterFields lp numMasterFields 3
    if pos ≥ lp.length then corrupt "stream: missing terminator after master fields"
    else
      let terminator ← index lp pos
      if terminator ≠ .int 0 then
        corrupt "stream: expected zero terminator after master fields"
      else
        let total := min (count + deleted) (2 ^ 64 - 1)
        let (entries, pos) ←
          decodeRecords masterMs masterSeq lp masterFields remainingBudget total (pos + 1) []
        if pos ≠ lp.length then
          let trailing ← sub64 lp.length pos
          corrupt s!"stream listpack has {trailing} trailing entries beyond count+deleted header"
        else pure entries

/-- stream.rs:60-214 -/
def decodeStreamListpack (masterMs masterSeq : Nat) (lpData : Bytes) (remainingBudget : Nat) :
    Res (List StreamEntry) := do
  let lp ← Listpack.decode lpData
  decodeElements masterMs masterSeq lp remainingBudget

/-! ### Every listpack is decoded or rejected -/

theorem lpU64_returns (entry : CompactEntry) (ctx : String) :
    Returns (lpU64 entry ctx) (fun _ => True) := by
  cases entry with
  | int n => exact ExceptMeets.ite (fun _ => trivial) fun _ => returns_corrupt
  | str s => exact returns_corrupt

theorem lpUsize_returns (entry : CompactEntry) (ctx : String) :
    Returns (lpUsize entry ctx) (fun _ => True) :=
  (lpU64_returns entry ctx).bind fun _ _ =>
    ExceptMeets.ite (fun _ => trivial) fun _ => returns_corrupt

theorem lpU32_returns (entry : CompactEntry) (ctx : String) :
    Returns (lpU32 entry ctx) (fun _ => True) :=
  (lpU64_returns entry ctx).bind fun _ _ =>
    ExceptMeets.ite (fun _ => trivial) fun _ => returns_corrupt

theorem readMasterFields_returns (lp : List CompactEntry) (n pos : Nat) (h : pos ≤ lp.length) :
    Returns (readMasterFields lp n pos) (fun r => r.2 ≤ lp.length) := by
  induction n generalizing pos with
  | zero => exact h
  | succ n ih =>
    refine ExceptMeets.ite (fun _ => returns_corrupt) fun hlt => ?_
    rw [index_lt (by omega), ok_bind]
    exact (ih (pos + 1) (by omega)).bind fun r hr => hr

theorem readSameFields_returns (lp : List CompactEntry) (mfs : List Bytes) (pos : Nat)
    (h : pos ≤ lp.length) :
    Returns (readSameFields lp mfs pos) (fun r => pos ≤ r.2 ∧ r.2 ≤ lp.length) := by
  induction mfs generalizing pos with
  | nil => exact ⟨le_rfl, h⟩
  | cons mf mfs ih =>
    refine ExceptMeets.ite (fun _ => returns_corrupt) fun hlt => ?_
    rw [index_lt (by omega), ok_bind]
    exact (ih (pos + 1) (by omega)).bind fun r hr => ⟨by have := hr.1; omega, hr.2⟩

theorem readPairs_returns {lp : List CompactEntry} (hlp : lp.length < 2 ^ 63) (n pos : Nat)
    (h : pos ≤ lp.length) :
    Returns (readPairs lp n pos) (fun r => pos ≤ r.2 ∧ r.2 ≤ lp.length) := by
  induction n generalizing pos with
  | zero => exact ⟨le_rfl, h⟩
  | succ n ih =>
    rw [readPairs, add64_eq (by omega), ok_bind]
    refine ExceptMeets.ite (fun _ => returns_corrupt) fun hlt => ?_
    rw [index_lt (by omega), ok_bind, index_lt (by omega), ok_bind]
    exact (ih (pos + 1 + 1) (by omega)).bind fun r hr => ⟨by have := hr.1; omega, hr.2⟩

theorem addDelta_returns (base delta : Nat) (msg : String) :
    Returns (addDelta base delta msg) (fun _ => True) :=
  ExceptMeets.ite (fun _ => trivial) fun _ => returns_corrupt

theorem decodeRecord_returns (masterMs masterSeq : Nat) {lp : List CompactEntry}
    (hlp : lp.length < 2 ^ 63) (masterFields : List Bytes) (pos : Nat) (h : pos ≤ lp.length) :
    Returns (decodeRecord masterMs masterSeq lp masterFields pos)
      (fun r => pos < r.2.2 ∧ r.2.2 ≤ lp.length) := by
  rw [decodeRecord, add64_eq (by omega), ok_bind]
  refine ExceptMeets.ite (fun _ => returns_corrupt) fun hahead => ?_
  rw [index_lt (by omega), ok_bind]
  refine (lpU32_returns _ _).bind fun flags _ => ?_
  rw [index_lt (by omega), ok_bind]
  refine (lpU64_returns _ _).bind fun msDelta _ => ?_
  rw [index_lt (by omega), ok_bind]
  refine (lpU64_returns _ _).bind fun seqDelta _ => ?_
  refine (addDelta_returns _ _ _).bind fun entryMs _ => ?_
  refine (addDelta_returns _ _ _).bind fun entrySeq _ => ?_
  have hfv : Returns (readFieldValues lp masterFields (flags &&& 2 ≠ 0) (pos + 3))
      (fun r => pos < r.2 ∧ r.2 ≤ lp.length) := by
    refine ExceptMeets.ite (fun _ => (readSameFields_returns lp _ _ (by omega)).mono
      fun r hr => ⟨by have := hr.1; omega, hr.2⟩) fun _ => ?_
    refine ExceptMeets.ite (fun _ => returns_corrupt) fun hlt => ?_
    rw [index_lt (by omega), ok_bind]
    exact (lpUsize_returns _ _).bind fun nf _ => (readPairs_returns hlp nf _ (by omega)).mono
      fun r hr => ⟨by have := hr.1; omega, hr.2⟩
  refine hfv.bind fun r hr => ?_
  refine ExceptMeets.ite (fun _ => returns_corrupt) fun hlt => ?_
  rw [index_lt (by omega), ok_bind]
  refine (lpU64_returns _ _).bind fun _ _ => ?_
  simp only [exceptMeets_pure]
  omega

theorem decodeRecords_returns (masterMs masterSeq : Nat) {lp : List CompactEntry}
    (hlp : lp.length < 2 ^ 63) (masterFields : List Bytes) (budget total pos : Nat)
    (entries : List StreamEntry) (h : pos ≤ lp.length) :
    Returns (decodeRecords masterMs masterSeq lp masterFields budget total pos entries)
      (fun r => r.2 ≤ lp.length) := by
  induction total generalizing pos entries with
  | zero => exact h
  | succ total ih =>
    refine (decodeRecord_returns masterMs masterSeq hlp masterFields pos h).bind fun r hr => ?_
    obtain ⟨isDeleted, entry, pos'⟩ := r
    refine ExceptMeets.ite (fun _ => ih pos' entries hr.2) fun _ => ?_
    exact ExceptMeets.ite (fun _ => returns_corrupt) fun _ => ih pos' _ hr.2

/-- More records than the listpack has elements are never reached. -/
theorem decodeRecords_cutShort (masterMs masterSeq : Nat) {lp : List CompactEntry}
    (hlp : lp.length < 2 ^ 63) (masterFields : List Bytes) (budget m n pos : Nat)
    (entries : List StreamEntry) (hpos : pos ≤ lp.length) (hm : lp.length - pos < m)
    (hmn : m ≤ n) : decodeRecords masterMs masterSeq lp masterFields budget n pos entries =
      decodeRecords masterMs masterSeq lp masterFields budget m pos entries := by
  induction m generalizing n pos entries with
  | zero => omega
  | succ m ih =>
    obtain ⟨n, rfl⟩ : ∃ k, n = k + 1 := ⟨n - 1, by omega⟩
    have hrecord := decodeRecord_returns masterMs masterSeq hlp masterFields pos hpos
    rw [decodeRecords, decodeRecords]
    cases hr : decodeRecord masterMs masterSeq lp masterFields pos with
    | error e => rfl
    | ok r =>
      obtain ⟨isDeleted, entry, pos'⟩ := r
      rw [hr] at hrecord
      obtain ⟨hlt, hle⟩ : pos < pos' ∧ pos' ≤ lp.length := hrecord
      have hrest := fun es => ih n pos' es hle (by omega) (by omega)
      rw [ok_bind, ok_bind]
      dsimp only
      rw [hrest, hrest]

theorem decodeElements_returns (masterMs masterSeq : Nat) {lp : List CompactEntry}
    (hlp : lp.length < 2 ^ 63) (budget : Nat) :
    Returns (decodeElements masterMs masterSeq lp budget) (fun _ => True) := by
  refine ExceptMeets.ite (fun _ => returns_corrupt) fun hlen => ?_
  rw [index_lt (by omega), ok_bind]
  refine (lpU64_returns _ _).bind fun count _ => ?_
  rw [index_lt (by omega), ok_bind]
  refine (lpU64_returns _ _).bind fun deleted _ => ?_
  rw [index_lt (by omega), ok_bind]
  refine (lpUsize_returns _ _).bind fun numMasterFields _ => ?_
  refine (readMasterFields_returns lp numMasterFields 3 (by omega)).bind fun r hr => ?_
  obtain ⟨masterFields, pos⟩ := r
  dsimp only at hr ⊢
  refine ExceptMeets.ite (fun _ => returns_corrupt) fun hlt => ?_
  rw [index_lt (by omega), ok_bind]
  refine ExceptMeets.ite (fun _ => returns_corrupt) fun _ => ?_
  refine (decodeRecords_returns masterMs masterSeq hlp masterFields budget _ (pos + 1) []
    (by omega)).bind fun r hr => ?_
  refine ExceptMeets.ite (fun _ => ?_) fun _ => trivial
  rw [sub64_eq hr, ok_bind]
  exact returns_corrupt

theorem decodeStreamListpack_returns (masterMs masterSeq : Nat) {lpData : Bytes}
    (hd : lpData.length < 2 ^ 63) (budget : Nat) :
    Returns (decodeStreamListpack masterMs masterSeq lpData budget) (fun _ => True) :=
  (Listpack.decode_returns lpData).bind fun lp hlp =>
    decodeElements_returns masterMs masterSeq (by omega) budget

end ValkeyRdb.Stream
