import ValkeyRdb.Format.Listpack
import ValkeyRdb.Stream

/-!
# Stream listpacks as they are written

A listpack of a stream holds the fields of its master entry and records whose IDs are
stored as differences to the master ID, taken modulo 2^64 and read as signed numbers. IDs
grow lexicographically, so the second difference can be negative, which the decoder
refuses.
-/

namespace ValkeyRdb.Stream

/-- `ms-seq`; both parts are unsigned 64-bit numbers. -/
structure Id where
  ms : Nat
  seq : Nat
  ms_lt : ms < 2 ^ 64
  seq_lt : seq < 2 ^ 64

def Id.Before (a b : Id) : Prop := a.ms < b.ms ∨ (a.ms = b.ms ∧ a.seq < b.seq)

def Id.text (a : Id) : String := s!"{a.ms}-{a.seq}"

/-- Fields of a record: values for the master fields, or pairs of its own. -/
inductive Fields where
  | same (values : List CompactEntry)
  | own (pairs : List (CompactEntry × CompactEntry))

structure Record where
  id : Id
  deleted : Bool
  fields : Fields

/-- A difference of two 64-bit numbers, as it is stored. -/
def delta (a base : Nat) : Int := signed 64 (a + 2 ^ 64 - base)

namespace Fields

def isSame : Fields → Bool
  | same _ => true
  | own _ => false

def elements : Fields → List CompactEntry
  | same values => values
  | own pairs => .int pairs.length :: pairs.flatMap fun p => [p.1, p.2]

def lpCount : Fields → Nat
  | same values => values.length + 3
  | own pairs => 2 * pairs.length + 4

def value (masterFields : List CompactEntry) : Fields → List (Bytes × Bytes)
  | same values =>
    List.zip (masterFields.map CompactEntry.intoBytes) (values.map CompactEntry.intoBytes)
  | own pairs => pairs.map fun p => (p.1.intoBytes, p.2.intoBytes)

/-- A record with the master fields has a value for each. -/
def Matches (masterFields : List CompactEntry) : Fields → Prop
  | same values => values.length = masterFields.length
  | own _ => True

end Fields

def Record.flags (r : Record) : Nat := r.deleted.toNat + 2 * r.fields.isSame.toNat

def Record.elements (master : Id) (r : Record) : List CompactEntry :=
  .int r.flags :: .int (delta r.id.ms master.ms) :: .int (delta r.id.seq master.seq) ::
    (r.fields.elements ++ [.int r.fields.lpCount])

def Record.entry (masterFields : List CompactEntry) (r : Record) : StreamEntry :=
  ⟨r.id.text, r.fields.value masterFields⟩

/-- The records of one listpack. The first one has the master ID. -/
structure Node where
  master : Id
  masterFields : List CompactEntry
  records : List Record
  first : records.head?.map Record.id = some master
  increasing : (records.map Record.id).Pairwise Id.Before
  fields_match : ∀ r ∈ records, r.fields.Matches masterFields

namespace Node

def live (n : Node) : List Record := n.records.filter fun r => !r.deleted

def deletedCount (n : Node) : Nat := (n.records.filter fun r => r.deleted).length

/-- What a reader of the stream must return. -/
def entries (n : Node) : List StreamEntry := n.live.map (Record.entry n.masterFields)

/-- The layout of stream.rs:5-6. -/
def elements (n : Node) : List CompactEntry :=
  .int n.live.length :: .int n.deletedCount :: .int n.masterFields.length ::
    (n.masterFields ++ .int 0 :: n.records.flatMap (Record.elements n.master))

end Node

/-- The differences to the master ID are stored as non-negative numbers. -/
def Id.Near (a master : Id) : Prop :=
  a.ms - master.ms < 2 ^ 63 ∧ master.seq ≤ a.seq ∧ a.seq - master.seq < 2 ^ 63

/-! ### Differences -/

theorem delta_near {a base : Nat} (hb : base ≤ a) (h : a - base < 2 ^ 63) :
    delta a base = (a - base : Nat) := by
  have hmod : (a + 2 ^ 64 - base) % 2 ^ 64 = a - base := by omega
  have hbits : BitVec.ofNat 64 (a + 2 ^ 64 - base) = BitVec.ofNat 64 (a - base) := by
    apply BitVec.eq_of_toNat_eq
    rw [BitVec.toNat_ofNat, BitVec.toNat_ofNat, hmod]
    omega
  have hsigned := signed_eq (w := 64) (n := a - base) (by omega)
  rw [if_pos (by omega)] at hsigned
  rw [delta, signed, hbits]
  exact hsigned

/-- A difference that is out of range is negative or overflows when it is added. -/
theorem delta_far {a base : Nat} (ha : a < 2 ^ 64) (hb : base < 2 ^ 64)
    (h : ¬(base ≤ a ∧ a - base < 2 ^ 63)) :
    delta a base < 0 ∨ 2 ^ 64 ≤ base + (delta a base).toNat := by
  have hbits : delta a base = signed 64 ((a + 2 ^ 64 - base) % 2 ^ 64) := by
    rw [delta, signed, signed]
    congr 1
    apply BitVec.eq_of_toNat_eq
    rw [BitVec.toNat_ofNat, BitVec.toNat_ofNat, Nat.mod_mod]
  have hsigned := signed_eq (w := 64) (n := (a + 2 ^ 64 - base) % 2 ^ 64) (Nat.mod_lt _ (by decide))
  rw [← hbits] at hsigned
  split at hsigned <;> omega

theorem lpU64_nat (n : Nat) (ctx : String) : lpU64 (.int n) ctx = .ok n := by
  rw [lpU64, if_pos (Int.natCast_nonneg n)]
  rfl

theorem lpUsize_nat {n : Nat} (h : n < 2 ^ 64) (ctx : String) : lpUsize (.int n) ctx = .ok n := by
  rw [lpUsize, lpU64_nat, ok_bind, if_pos h]
  rfl

theorem lpU32_nat {n : Nat} (h : n < 2 ^ 32) (ctx : String) : lpU32 (.int n) ctx = .ok n := by
  rw [lpU32, lpU64_nat, ok_bind, if_pos h]
  rfl

theorem Node.master_le (n : Node) {r : Record} (hr : r ∈ n.records) : n.master.ms ≤ r.id.ms := by
  have hfirst := n.first
  have hincr := n.increasing
  cases hrec : n.records with
  | nil =>
    rw [hrec] at hr
    cases hr
  | cons r₀ rs =>
    rw [hrec] at hr hfirst hincr
    have hmaster : r₀.id = n.master := Option.some.inj hfirst
    rcases List.mem_cons.mp hr with rfl | hmem
    · rw [hmaster]
    · have hbefore := (List.pairwise_cons.mp hincr).1 r.id (List.mem_map_of_mem hmem)
      rw [hmaster] at hbefore
      rcases hbefore with h | ⟨h, -⟩
      · exact h.le
      · exact h.le

/-! ### Fields -/

section Decoder

variable {lp : List CompactEntry}

theorem index_mid {α : Type} (pre : List α) (x : α) (post : List α) :
    index (pre ++ x :: post) pre.length = .ok x := index_append pre _ (k := 0) rfl

theorem readMasterFields_form (fields pre post : List CompactEntry) :
    readMasterFields (pre ++ (fields ++ post)) fields.length pre.length =
      .ok (fields.map CompactEntry.intoBytes, pre.length + fields.length) := by
  induction fields generalizing pre with
  | nil => rfl
  | cons f fs ih =>
    have hlt : ¬pre.length ≥ (pre ++ (f :: fs ++ post)).length := by
      simp only [List.length_append, List.length_cons]
      omega
    have hrest := ih (pre ++ [f])
    simp only [List.append_assoc, List.singleton_append, List.length_append,
      List.length_singleton] at hrest
    rw [List.length_cons, readMasterFields, if_neg hlt, List.cons_append, index_mid, ok_bind, hrest,
      ok_bind]
    simp only [List.map_cons, pure, Except.pure]
    congr 2
    omega

theorem readSameFields_form (masterFields : List Bytes) (values pre post : List CompactEntry)
    (hlen : values.length = masterFields.length) :
    readSameFields (pre ++ (values ++ post)) masterFields pre.length =
      .ok (List.zip masterFields (values.map CompactEntry.intoBytes), pre.length + values.length) := by
  induction masterFields generalizing values pre with
  | nil =>
    cases List.eq_nil_of_length_eq_zero hlen
    rfl
  | cons mf mfs ih =>
    cases values with
    | nil => cases hlen
    | cons v vs =>
      have hlt : ¬pre.length ≥ (pre ++ (v :: vs ++ post)).length := by
        simp only [List.length_append, List.length_cons]
        omega
      have hrest := ih vs (pre ++ [v]) (by simpa using hlen)
      simp only [List.append_assoc, List.singleton_append, List.length_append,
        List.length_singleton] at hrest
      rw [readSameFields, if_neg hlt, List.cons_append, index_mid, ok_bind, hrest, ok_bind]
      simp only [List.map_cons, List.zip_cons_cons, List.length_cons, pure, Except.pure]
      congr 2
      omega

theorem length_pairs (pairs : List (CompactEntry × CompactEntry)) :
    (pairs.flatMap fun p => [p.1, p.2]).length = 2 * pairs.length := by
  induction pairs with
  | nil => rfl
  | cons p ps ih =>
    rw [List.flatMap_cons, List.length_append, ih, List.length_cons]
    simp only [List.length_cons, List.length_nil]
    omega

theorem readPairs_form (pairs : List (CompactEntry × CompactEntry)) (pre post : List CompactEntry)
    (h64 : (pre ++ (pairs.flatMap (fun p => [p.1, p.2]) ++ post)).length < 2 ^ 63) :
    readPairs (pre ++ (pairs.flatMap (fun p => [p.1, p.2]) ++ post)) pairs.length pre.length =
      .ok (pairs.map fun p => (p.1.intoBytes, p.2.intoBytes), pre.length + 2 * pairs.length) := by
  induction pairs generalizing pre with
  | nil => rfl
  | cons p ps ih =>
    simp only [List.flatMap_cons, List.append_assoc] at h64 ⊢
    have hrest := ih (pre ++ [p.1, p.2]) (by simpa using h64)
    simp only [List.append_assoc] at hrest
    have hlen : (pre ++ [p.1, p.2]).length = pre.length + 1 + 1 := by simp
    rw [hlen] at hrest
    generalize ps.flatMap (fun p => [p.1, p.2]) ++ post = rest at h64 hrest
    have hlt : ¬pre.length + 1 ≥ (pre ++ ([p.1, p.2] ++ rest)).length := by simp
    have h0 : index (pre ++ ([p.1, p.2] ++ rest)) pre.length = .ok p.1 :=
      index_append pre _ (k := 0) rfl
    have h1 : index (pre ++ ([p.1, p.2] ++ rest)) (pre.length + 1) = .ok p.2 :=
      index_append pre _ (k := 1) rfl
    rw [List.length_cons, readPairs, add64_eq (by simp at h64; omega), ok_bind, if_neg hlt, h0,
      ok_bind, h1, ok_bind, hrest, ok_bind]
    simp only [List.map_cons, pure, Except.pure]
    congr 2
    omega

theorem readFieldValues_form (masterFields : List CompactEntry) (f : Fields)
    (pre post : List CompactEntry) (hm : f.Matches masterFields)
    (h64 : (pre ++ (f.elements ++ post)).length < 2 ^ 63) :
    readFieldValues (pre ++ (f.elements ++ post)) (masterFields.map CompactEntry.intoBytes) f.isSame
      pre.length = .ok (f.value masterFields, pre.length + f.elements.length) := by
  cases f with
  | same values =>
    exact readSameFields_form _ values pre post (by rw [List.length_map]; exact hm)
  | own pairs =>
    have hlt : ¬pre.length ≥ (pre ++ ((Fields.own pairs).elements ++ post)).length := by
      simp [Fields.elements]
    have hpairs := readPairs_form pairs (pre ++ [.int pairs.length]) post
      (by simpa [Fields.elements] using h64)
    have hcount : pairs.length < 2 ^ 64 := by
      simp only [Fields.elements, List.cons_append, List.length_append, List.length_cons,
        length_pairs] at h64
      omega
    simp only [List.append_assoc, List.singleton_append, List.length_append,
      List.length_singleton] at hpairs
    change (if _ ≥ _ then _ else _ : Res (List (Bytes × Bytes) × Nat)) = _
    rw [if_neg hlt]
    change (index (pre ++ .int pairs.length :: _) _ >>= _) = _
    rw [index_mid, ok_bind, lpUsize_nat hcount, ok_bind]
    refine hpairs.trans ?_
    simp only [Fields.elements, Fields.value, List.length_cons, length_pairs]
    congr 2
    omega

/-! ### Records -/

theorem flags_bits (r : Record) : decide (r.flags &&& 1 ≠ 0) = r.deleted ∧
    decide (r.flags &&& 2 ≠ 0) = r.fields.isSame ∧ r.flags < 2 ^ 32 := by
  rw [Record.flags]
  cases r.deleted <;> cases r.fields.isSame <;> decide

theorem addDelta_near {a base : Nat} (hb : base ≤ a) (ha : a < 2 ^ 64) (msg : String) :
    addDelta base (a - base) msg = .ok a := by
  have hsum : base + (a - base) = a := by omega
  rw [addDelta, hsum, if_pos ha]

theorem decodeRecord_form (master : Id) (masterFields : List CompactEntry) (r : Record)
    (pre post : List CompactEntry) (hm : r.fields.Matches masterFields)
    (hle : master.ms ≤ r.id.ms) (hnear : r.id.Near master)
    (h64 : (pre ++ (r.elements master ++ post)).length < 2 ^ 63) :
    decodeRecord master.ms master.seq (pre ++ (r.elements master ++ post))
      (masterFields.map CompactEntry.intoBytes) pre.length =
      .ok (r.deleted, r.entry masterFields, pre.length + (r.elements master).length) := by
  obtain ⟨hdel, hsame, h32⟩ := flags_bits r
  obtain ⟨hms, hseq, hseqd⟩ := hnear
  have hfields := readFieldValues_form masterFields r.fields
    (pre ++ [.int r.flags, .int (delta r.id.ms master.ms), .int (delta r.id.seq master.seq)])
    (.int r.fields.lpCount :: post) hm (by simpa [Record.elements] using h64)
  have hlast := index_mid (pre ++ [.int r.flags, .int (delta r.id.ms master.ms),
    .int (delta r.id.seq master.seq)] ++ r.fields.elements) (.int r.fields.lpCount) post
  have hlp : pre ++ [.int r.flags, .int (delta r.id.ms master.ms),
      .int (delta r.id.seq master.seq)] ++ (r.fields.elements ++ .int r.fields.lpCount :: post) =
      pre ++ (r.elements master ++ post) := by
    simp [Record.elements]
  have hlen : (pre ++ [CompactEntry.int r.flags, .int (delta r.id.ms master.ms),
      .int (delta r.id.seq master.seq)]).length = pre.length + 3 := by simp
  rw [hlp, hlen] at hfields
  rw [List.length_append, hlen, List.append_assoc, hlp] at hlast
  have hsize : (r.elements master).length = r.fields.elements.length + 4 := by
    simp [Record.elements]
  have h0 : index (pre ++ (r.elements master ++ post)) pre.length = .ok (.int r.flags) :=
    index_append pre _ (k := 0) rfl
  have h1 : index (pre ++ (r.elements master ++ post)) (pre.length + 1) =
      .ok (.int (delta r.id.ms master.ms)) := index_append pre _ (k := 1) rfl
  have h2 : index (pre ++ (r.elements master ++ post)) (pre.length + 2) =
      .ok (.int (delta r.id.seq master.seq)) := index_append pre _ (k := 2) rfl
  have hlong : (pre ++ (r.elements master ++ post)).length =
      pre.length + (r.fields.elements.length + 4 + post.length) := by
    rw [List.length_append, List.length_append, hsize]
  rw [decodeRecord, add64_eq (by omega), ok_bind, if_neg (by omega), h0, ok_bind, lpU32_nat h32,
    ok_bind, h1, ok_bind, delta_near hle hms, lpU64_nat, ok_bind, h2, ok_bind,
    delta_near hseq hseqd, lpU64_nat, ok_bind]
  dsimp only
  rw [addDelta_near hle r.id.ms_lt, ok_bind, addDelta_near hseq r.id.seq_lt, ok_bind, hsame, hfields,
    ok_bind]
  dsimp only
  have hend : pre.length + 3 + r.fields.elements.length + 1 =
      pre.length + (r.elements master).length := by omega
  rw [if_neg (by omega), hlast, ok_bind, lpU64_nat, ok_bind, hdel, hend]
  rfl

theorem lpU64_delta_neg {i : Int} (h : i < 0) (ctx : String) :
    ∃ e, lpU64 (.int i) ctx = .error e := ⟨_, if_neg (by omega)⟩

theorem lpU64_delta (a base : Nat) (ctx : String) (h : 0 ≤ delta a base) :
    lpU64 (.int (delta a base)) ctx = .ok (delta a base).toNat := if_pos h

theorem decodeRecord_error (master : Id) (masterFields : List Bytes) (r : Record)
    (pre post : List CompactEntry) (hfar : ¬(master.ms ≤ r.id.ms ∧ r.id.Near master))
    (h64 : (pre ++ (r.elements master ++ post)).length < 2 ^ 63) :
    ∃ e, decodeRecord master.ms master.seq (pre ++ (r.elements master ++ post)) masterFields
      pre.length = .error e := by
  obtain ⟨-, -, h32⟩ := flags_bits r
  have h0 : index (pre ++ (r.elements master ++ post)) pre.length = .ok (.int r.flags) :=
    index_append pre _ (k := 0) rfl
  have h1 : index (pre ++ (r.elements master ++ post)) (pre.length + 1) =
      .ok (.int (delta r.id.ms master.ms)) := index_append pre _ (k := 1) rfl
  have h2 : index (pre ++ (r.elements master ++ post)) (pre.length + 2) =
      .ok (.int (delta r.id.seq master.seq)) := index_append pre _ (k := 2) rfl
  have hlong : ¬pre.length + 2 ≥ (pre ++ (r.elements master ++ post)).length := by
    simp [Record.elements]
  rw [decodeRecord, add64_eq (by omega), ok_bind, if_neg hlong, h0, ok_bind, lpU32_nat h32,
    ok_bind, h1, ok_bind]
  by_cases hms0 : delta r.id.ms master.ms < 0
  · obtain ⟨e, he⟩ := lpU64_delta_neg hms0 "ms_delta"
    exact ⟨e, by rw [he]; rfl⟩
  rw [lpU64_delta _ _ _ (by omega), ok_bind, h2, ok_bind]
  by_cases hseq0 : delta r.id.seq master.seq < 0
  · obtain ⟨e, he⟩ := lpU64_delta_neg hseq0 "seq_delta"
    exact ⟨e, by rw [he]; rfl⟩
  rw [lpU64_delta _ _ _ (by omega), ok_bind]
  dsimp only
  by_cases hms : master.ms ≤ r.id.ms ∧ r.id.ms - master.ms < 2 ^ 63
  · have hseq : ¬(master.seq ≤ r.id.seq ∧ r.id.seq - master.seq < 2 ^ 63) :=
      fun h => hfar ⟨hms.1, hms.2, h.1, h.2⟩
    rcases delta_far r.id.seq_lt master.seq_lt hseq with hneg | hover
    · exact absurd hneg hseq0
    · have hmsval : (delta r.id.ms master.ms).toNat = r.id.ms - master.ms := by
        rw [delta_near hms.1 hms.2]
        rfl
      rw [hmsval, addDelta_near hms.1 r.id.ms_lt, ok_bind, addDelta, if_neg (by omega)]
      exact ⟨_, rfl⟩
  · rcases delta_far r.id.ms_lt master.ms_lt hms with hneg | hover
    · exact absurd hneg hms0
    · rw [addDelta, if_neg (by omega)]
      exact ⟨_, rfl⟩

/-! ### The record loop -/

/-- The condition under which records are accepted: their differences are in range, and
the live ones fit the budget behind the entries kept so far. -/
def Accepts (master : Id) (budget kept : Nat) (records : List Record) : Prop :=
  (∀ r ∈ records, r.id.Near master) ∧ kept + (records.filter fun r => !r.deleted).length ≤ budget

theorem decodeRecords_form (master : Id) (masterFields : List CompactEntry) (budget : Nat)
    (records : List Record) (pre post : List CompactEntry) (kept : List StreamEntry)
    (hm : ∀ r ∈ records, r.fields.Matches masterFields)
    (hle : ∀ r ∈ records, master.ms ≤ r.id.ms)
    (h64 : (pre ++ (records.flatMap (Record.elements master) ++ post)).length < 2 ^ 63)
    (hacc : Accepts master budget kept.length records) :
    decodeRecords master.ms master.seq (pre ++ (records.flatMap (Record.elements master) ++ post))
      (masterFields.map CompactEntry.intoBytes) budget records.length pre.length kept =
      .ok (kept ++ (records.filter fun r => !r.deleted).map (Record.entry masterFields),
        pre.length + (records.flatMap (Record.elements master)).length) := by
  induction records generalizing pre kept with
  | nil => simp [decodeRecords]
  | cons r rs ih =>
    obtain ⟨hnear, hbudget⟩ := hacc
    simp only [List.flatMap_cons, List.append_assoc] at h64 ⊢
    have hr := decodeRecord_form master masterFields r pre
      (rs.flatMap (Record.elements master) ++ post) (hm r List.mem_cons_self)
      (hle r List.mem_cons_self) (hnear r List.mem_cons_self) h64
    have hrest := ih (pre ++ r.elements master)
    simp only [List.append_assoc, List.length_append] at hrest h64
    have hrs := fun kept' h => hrest kept' (fun s hs => hm s (List.mem_cons_of_mem r hs))
      (fun s hs => hle s (List.mem_cons_of_mem r hs)) (by omega)
      ⟨fun s hs => hnear s (List.mem_cons_of_mem r hs), h⟩
    rw [List.length_cons, decodeRecords, hr, ok_bind]
    dsimp only
    cases hd : r.deleted with
    | true =>
      have hfilter : (r :: rs).filter (fun r => !r.deleted) = rs.filter fun r => !r.deleted := by
        simp [hd]
      rw [hfilter] at hbudget ⊢
      rw [if_pos rfl, hrs kept hbudget, List.length_append, Nat.add_assoc]
    | false =>
      have hfilter : (r :: rs).filter (fun r => !r.deleted) = r :: rs.filter fun r => !r.deleted := by
        simp [hd]
      rw [hfilter] at hbudget ⊢
      rw [List.length_cons] at hbudget
      rw [if_neg (by decide), if_neg (by omega),
        hrs (kept ++ [r.entry masterFields]) (by rw [List.length_append, List.length_singleton]; omega),
        List.length_append, Nat.add_assoc, List.append_assoc]
      rfl

theorem decodeRecords_error (master : Id) (masterFields : List CompactEntry) (budget : Nat)
    (records : List Record) (pre post : List CompactEntry) (kept : List StreamEntry)
    (hm : ∀ r ∈ records, r.fields.Matches masterFields)
    (hle : ∀ r ∈ records, master.ms ≤ r.id.ms)
    (h64 : (pre ++ (records.flatMap (Record.elements master) ++ post)).length < 2 ^ 63)
    (hkept : kept.length ≤ budget) (hacc : ¬Accepts master budget kept.length records) :
    ∃ e, decodeRecords master.ms master.seq
      (pre ++ (records.flatMap (Record.elements master) ++ post))
      (masterFields.map CompactEntry.intoBytes) budget records.length pre.length kept =
      .error e := by
  induction records generalizing pre kept with
  | nil => exact absurd ⟨by simp, by simpa using hkept⟩ hacc
  | cons r rs ih =>
    simp only [List.flatMap_cons, List.append_assoc] at h64 ⊢
    rw [List.length_cons, decodeRecords]
    by_cases hnear : r.id.Near master
    · have hr := decodeRecord_form master masterFields r pre
        (rs.flatMap (Record.elements master) ++ post) (hm r List.mem_cons_self)
        (hle r List.mem_cons_self) hnear h64
      have hrest := ih (pre ++ r.elements master)
      simp only [List.append_assoc, List.length_append] at hrest h64
      have hrs := fun kept' hk h => hrest kept' (fun s hs => hm s (List.mem_cons_of_mem r hs))
        (fun s hs => hle s (List.mem_cons_of_mem r hs)) (by omega) hk h
      have hcons : ∀ k, Accepts master budget k rs →
          ∀ s ∈ r :: rs, s.id.Near master := by
        intro k hk s hs
        rcases List.mem_cons.mp hs with rfl | hs
        · exact hnear
        · exact hk.1 s hs
      rw [hr, ok_bind]
      dsimp only
      cases hd : r.deleted with
      | true =>
        rw [if_pos rfl]
        refine hrs kept hkept fun h => hacc ⟨hcons _ h, ?_⟩
        have hfilter : (r :: rs).filter (fun r => !r.deleted) = rs.filter fun r => !r.deleted := by
          simp [hd]
        rw [hfilter]
        exact h.2
      | false =>
        rw [if_neg (by decide)]
        by_cases hfull : kept.length ≥ budget
        · rw [if_pos hfull]
          exact ⟨_, rfl⟩
        rw [if_neg hfull]
        refine hrs _ (by rw [List.length_append, List.length_singleton]; omega)
          fun h => hacc ⟨hcons _ h, ?_⟩
        have hfilter : (r :: rs).filter (fun r => !r.deleted) =
            r :: rs.filter fun r => !r.deleted := by simp [hd]
        have hle' := h.2
        rw [List.length_append, List.length_singleton] at hle'
        rw [hfilter, List.length_cons]
        omega
    · obtain ⟨e, he⟩ := decodeRecord_error master (masterFields.map CompactEntry.intoBytes) r pre
        (rs.flatMap (Record.elements master) ++ post) (fun h => hnear h.2) h64
      rw [he]
      exact ⟨e, rfl⟩

end Decoder

/-! ### A listpack of a stream -/

theorem Node.length_records (n : Node) : n.live.length + n.deletedCount = n.records.length := by
  rw [Node.live, Node.deletedCount]
  induction n.records with
  | nil => rfl
  | cons r rs ih =>
    cases hd : r.deleted with
    | true =>
      simp only [List.filter_cons, hd, Bool.not_true, Bool.false_eq_true, if_false, if_true,
        List.length_cons]
      omega
    | false =>
      simp only [List.filter_cons, hd, Bool.not_false, Bool.false_eq_true, if_false, if_true,
        List.length_cons]
      omega

theorem length_le_elements (master : Id) (records : List Record) :
    records.length ≤ (records.flatMap (Record.elements master)).length := by
  induction records with
  | nil => exact le_rfl
  | cons r rs ih =>
    simp only [List.flatMap_cons, List.length_append, List.length_cons, Record.elements]
    omega

theorem decodeElements_form (n : Node) (budget : Nat) (h64 : n.elements.length < 2 ^ 63) :
    decodeElements n.master.ms n.master.seq n.elements budget = (do
      let (entries, pos) ← decodeRecords n.master.ms n.master.seq n.elements
        (n.masterFields.map CompactEntry.intoBytes) budget n.records.length
        (n.masterFields.length + 4) []
      if pos ≠ n.elements.length then
        let trailing ← sub64 n.elements.length pos
        corrupt s!"stream listpack has {trailing} trailing entries beyond count+deleted header"
      else pure entries) := by
  have hcount := n.length_records
  have hrec := length_le_elements n.master n.records
  have hlen : n.elements.length = n.masterFields.length + 4 +
      (n.records.flatMap (Record.elements n.master)).length := by
    simp only [Node.elements, List.length_cons, List.length_append]
    omega
  have hfields : readMasterFields n.elements n.masterFields.length 3 =
      .ok (n.masterFields.map CompactEntry.intoBytes, 3 + n.masterFields.length) :=
    readMasterFields_form n.masterFields
      [.int n.live.length, .int n.deletedCount, .int n.masterFields.length]
      (.int 0 :: n.records.flatMap (Record.elements n.master))
  have hzero := index_mid ([CompactEntry.int n.live.length, .int n.deletedCount,
    .int n.masterFields.length] ++ n.masterFields) (.int 0)
    (n.records.flatMap (Record.elements n.master))
  rw [List.append_assoc] at hzero
  have hlp : [CompactEntry.int n.live.length, .int n.deletedCount, .int n.masterFields.length] ++
      (n.masterFields ++ .int 0 :: n.records.flatMap (Record.elements n.master)) = n.elements := rfl
  have hpos : ([CompactEntry.int n.live.length, .int n.deletedCount,
      .int n.masterFields.length] ++ n.masterFields).length = 3 + n.masterFields.length := by
    simp only [List.length_append, List.length_cons, List.length_nil]
  rw [hlp, hpos] at hzero
  have h0 : index n.elements 0 = .ok (.int n.live.length) := rfl
  have h1 : index n.elements 1 = .ok (.int n.deletedCount) := rfl
  have h2 : index n.elements 2 = .ok (.int n.masterFields.length) := rfl
  have htotal : min (n.live.length + n.deletedCount) (2 ^ 64 - 1) = n.records.length := by omega
  have hnext : 3 + n.masterFields.length + 1 = n.masterFields.length + 4 := by omega
  rw [decodeElements, if_neg (by omega), h0, ok_bind, lpU64_nat, ok_bind, h1, ok_bind, lpU64_nat,
    ok_bind, h2, ok_bind, lpUsize_nat (by omega), ok_bind]
  rw [hfields, ok_bind]
  dsimp only
  rw [if_neg (by omega), hzero, ok_bind, if_neg (by simp), htotal, hnext]

/-- Exactly the streams whose differences are in range, and whose live records fit the
budget, are read back. -/
theorem decodeElements_accepts (n : Node) (budget : Nat) (h64 : n.elements.length < 2 ^ 63) :
    (Accepts n.master budget 0 n.records →
      decodeElements n.master.ms n.master.seq n.elements budget = .ok n.entries) ∧
    (¬Accepts n.master budget 0 n.records →
      ∃ e, decodeElements n.master.ms n.master.seq n.elements budget = .error e) := by
  let pre : List CompactEntry := .int n.live.length :: .int n.deletedCount ::
    .int n.masterFields.length :: (n.masterFields ++ [.int 0])
  have hlp : pre ++ (n.records.flatMap (Record.elements n.master) ++ []) = n.elements := by
    simp [pre, Node.elements]
  have hpre : pre.length = n.masterFields.length + 4 := by
    simp [pre]
  have hlen : pre.length + (n.records.flatMap (Record.elements n.master)).length =
      n.elements.length := by
    rw [← hlp, List.append_nil, List.length_append]
  have hm := n.fields_match
  have hle : ∀ r ∈ n.records, n.master.ms ≤ r.id.ms := fun r hr => n.master_le hr
  rw [decodeElements_form n budget h64, ← hpre]
  refine ⟨fun hacc => ?_, fun hacc => ?_⟩
  · have hok := decodeRecords_form n.master n.masterFields budget n.records pre [] [] hm hle
      (by rw [hlp]; exact h64) hacc
    rw [hlp, hlen] at hok
    rw [hok, ok_bind]
    dsimp only
    rw [if_neg (by simp)]
    rfl
  · obtain ⟨e, he⟩ := decodeRecords_error n.master n.masterFields budget n.records pre [] [] hm hle
      (by rw [hlp]; exact h64) (Nat.zero_le budget) hacc
    rw [hlp] at he
    exact ⟨e, by rw [he]; rfl⟩

theorem length_value_lt (f : Listpack.Form) : f.value.length < 2 ^ 32 := by
  have hle := Listpack.length_le_entryBytes f.entries
  have hsize := f.size_lt
  rw [Listpack.Form.value, List.length_map]
  omega

theorem decodeStreamListpack_accepts (n : Node) (f : Listpack.Form) (hf : f.value = n.elements)
    (budget : Nat) :
    (Accepts n.master budget 0 n.records →
      decodeStreamListpack n.master.ms n.master.seq f.bytes budget = .ok n.entries) ∧
    (¬Accepts n.master budget 0 n.records →
      ∃ e, decodeStreamListpack n.master.ms n.master.seq f.bytes budget = .error e) := by
  have hlen := length_value_lt f
  rw [hf] at hlen
  rw [decodeStreamListpack, Listpack.decode_form, ok_bind, hf]
  exact decodeElements_accepts n budget (by omega)

/-- A listpack with at most `maxStreamEntries` live records is read back, IDs, fields and
order included, exactly when no record has an ID that is far from the master ID. -/
theorem streamListpack_roundtrip (n : Node) (f : Listpack.Form) (hf : f.value = n.elements)
    (hlive : n.live.length ≤ maxStreamEntries) :
    decodeStreamListpack n.master.ms n.master.seq f.bytes maxStreamEntries = .ok n.entries ↔
      ∀ r ∈ n.records, r.id.Near n.master := by
  obtain ⟨hok, herr⟩ := decodeStreamListpack_accepts n f hf maxStreamEntries
  constructor
  · intro h
    by_contra hfar
    obtain ⟨e, he⟩ := herr fun hacc => hfar hacc.1
    rw [h] at he
    cases he
  · intro hnear
    refine hok ⟨hnear, ?_⟩
    rw [Nat.zero_add]
    exact hlive

/-- A deleted record with the master ID 1-5, and behind it "f" = "v" with the ID 2-9. -/
def twoRecords : Node where
  master := ⟨1, 5, by decide, by decide⟩
  masterFields := [.str [102]]
  records := [⟨⟨1, 5, by decide, by decide⟩, true, .same [.str [117]]⟩,
    ⟨⟨2, 9, by decide, by decide⟩, false, .same [.str [118]]⟩]
  first := rfl
  increasing := by simp [Id.Before]
  fields_match := by simp [Fields.Matches]

def twoRecordsForm : Listpack.Form where
  entries := [.uint7 1 (by decide), .uint7 1 (by decide), .uint7 1 (by decide),
    .str6 [102] (by decide), .uint7 0 (by decide), .uint7 3 (by decide), .uint7 0 (by decide),
    .uint7 0 (by decide), .str6 [117] (by decide), .uint7 4 (by decide), .uint7 2 (by decide),
    .uint7 1 (by decide), .uint7 4 (by decide), .str6 [118] (by decide), .uint7 4 (by decide)]
  numElements := 15
  size_lt := by decide

theorem streamListpack_roundtrip_two :
    decodeStreamListpack 1 5 twoRecordsForm.bytes maxStreamEntries =
      .ok [⟨"2-9", [([102], [118])]⟩] := by
  have hnear : ∀ r ∈ twoRecords.records, r.id.Near twoRecords.master := by
    simp [twoRecords, Id.Near]
  exact (streamListpack_roundtrip twoRecords twoRecordsForm (by decide +kernel)
    (by decide +kernel)).mpr hnear

/-- The ID 2-0 behind 1-5 has the smaller sequence number. -/
def smallerSeq : Node where
  master := ⟨1, 5, by decide, by decide⟩
  masterFields := [.str [102]]
  records := [⟨⟨1, 5, by decide, by decide⟩, false, .same [.str [118]]⟩,
    ⟨⟨2, 0, by decide, by decide⟩, false, .same [.str [118]]⟩]
  first := rfl
  increasing := by simp [Id.Before]
  fields_match := by simp [Fields.Matches]

def smallerSeqForm : Listpack.Form where
  entries := [.uint7 2 (by decide), .uint7 0 (by decide), .uint7 1 (by decide),
    .str6 [102] (by decide), .uint7 0 (by decide), .uint7 2 (by decide), .uint7 0 (by decide),
    .uint7 0 (by decide), .str6 [118] (by decide), .uint7 4 (by decide), .uint7 2 (by decide),
    .uint7 1 (by decide), .int13 (-5) (by decide), .str6 [118] (by decide), .uint7 4 (by decide)]
  numElements := 15
  size_lt := by decide

theorem streamListpack_roundtrip_smaller_seq : smallerSeqForm.value = smallerSeq.elements ∧
    smallerSeq.live.length ≤ maxStreamEntries ∧
    decodeStreamListpack 1 5 smallerSeqForm.bytes maxStreamEntries ≠ .ok smallerSeq.entries := by
  have hvalue : smallerSeqForm.value = smallerSeq.elements := by decide +kernel
  refine ⟨hvalue, by decide +kernel, fun hok => ?_⟩
  obtain ⟨e, he⟩ := (decodeStreamListpack_accepts smallerSeq smallerSeqForm hvalue
    maxStreamEntries).2 fun hacc => by
      have hnear := hacc.1 _ (List.mem_cons_of_mem _ List.mem_cons_self)
      exact absurd hnear.2.1 (by decide)
  rw [show smallerSeq.master.ms = 1 from rfl, show smallerSeq.master.seq = 5 from rfl, hok] at he
  cases he

end ValkeyRdb.Stream
