import ValkeyRdb.Format.ListpackWalk
import ValkeyRdb.Format.Stream

/-!
# What the stream listpack decoder accepts

Every element of an accepted listpack belongs to the header, to the master fields or to one
of the records that the header counts, and the entries are the records that are not
deleted.
-/

namespace ValkeyRdb.Stream

/-- A record as it stands in a listpack: differences to the master ID, not IDs. -/
structure StoredRecord where
  flags : Nat
  msDelta : Nat
  seqDelta : Nat
  fields : Fields
  lpCount : Nat

namespace StoredRecord

def deleted (r : StoredRecord) : Bool := r.flags &&& 1 ≠ 0

def elements (r : StoredRecord) : List CompactEntry :=
  .int r.flags :: .int r.msDelta :: .int r.seqDelta :: (r.fields.elements ++ [.int r.lpCount])

def entry (masterMs masterSeq : Nat) (masterFields : List CompactEntry) (r : StoredRecord) :
    StreamEntry :=
  ⟨s!"{masterMs + r.msDelta}-{masterSeq + r.seqDelta}", r.fields.value masterFields⟩

/-- The second flag says where the fields are, there is a value for every master field, and
the ID does not wrap around. -/
structure Valid (masterMs masterSeq : Nat) (masterFields : List CompactEntry)
    (r : StoredRecord) : Prop where
  flags_lt : r.flags < 2 ^ 32
  same_iff : r.fields.isSame = decide (r.flags &&& 2 ≠ 0)
  fields_match : r.fields.Matches masterFields
  ms_lt : masterMs + r.msDelta < 2 ^ 64
  seq_lt : masterSeq + r.seqDelta < 2 ^ 64

end StoredRecord

/-- The elements of a listpack in full, and the entries they stand for. -/
def Accounts (masterMs masterSeq : Nat) (lp : List CompactEntry) (entries : List StreamEntry) :
    Prop :=
  ∃ (count deleted : Nat) (masterFields : List CompactEntry) (records : List StoredRecord),
    lp = .int count :: .int deleted :: .int masterFields.length ::
      (masterFields ++ .int 0 :: records.flatMap StoredRecord.elements) ∧
    records.length = count + deleted ∧
    (∀ r ∈ records, r.Valid masterMs masterSeq masterFields) ∧
    entries = (records.filter fun r => !r.deleted).map
      (StoredRecord.entry masterMs masterSeq masterFields)

/-! ### Fields -/

theorem lpU64_gives (entry : CompactEntry) (ctx : String) :
    Gives (lpU64 entry ctx) (fun n => entry = .int n) := by
  cases entry with
  | int i =>
    refine ExceptMeets.ite (fun h => ?_) fun _ => gives_corrupt
    change CompactEntry.int i = .int (i.toNat : Int)
    rw [Int.toNat_of_nonneg h]
  | str s => exact gives_corrupt

theorem lpUsize_gives (entry : CompactEntry) (ctx : String) :
    Gives (lpUsize entry ctx) (fun n => entry = .int n) :=
  (lpU64_gives entry ctx).bind fun _ hn =>
    ExceptMeets.ite (fun _ => hn) fun _ => gives_corrupt

theorem lpU32_gives (entry : CompactEntry) (ctx : String) :
    Gives (lpU32 entry ctx) (fun n => entry = .int n ∧ n < 2 ^ 32) :=
  (lpU64_gives entry ctx).bind fun _ hn =>
    ExceptMeets.ite (fun hlt => ⟨hn, hlt⟩) fun _ => gives_corrupt

theorem readMasterFields_gives (lp : List CompactEntry) (n pos : Nat) :
    Gives (readMasterFields lp n pos) (fun r => ∃ fields : List CompactEntry,
      fields.length = n ∧ lp.drop pos = fields ++ lp.drop r.2 ∧
        r.1 = fields.map CompactEntry.intoBytes) := by
  induction n generalizing pos with
  | zero => exact ⟨[], rfl, rfl, rfl⟩
  | succ n ih =>
    refine ExceptMeets.ite (fun _ => gives_corrupt) fun _ => ?_
    refine (index_gives lp pos).bind fun field hfield => ?_
    refine (ih (pos + 1)).bind fun r hr => ?_
    obtain ⟨fields, hlen, hdrop, hbytes⟩ := hr
    refine ⟨field :: fields, by rw [List.length_cons, hlen], ?_, ?_⟩
    · rw [drop_of_getElem? hfield, hdrop]
      rfl
    · rw [hbytes]
      rfl

theorem readSameFields_gives (lp : List CompactEntry) (mfs : List Bytes) (pos : Nat) :
    Gives (readSameFields lp mfs pos) (fun r => ∃ values : List CompactEntry,
      values.length = mfs.length ∧ lp.drop pos = values ++ lp.drop r.2 ∧
        r.1 = List.zip mfs (values.map CompactEntry.intoBytes)) := by
  induction mfs generalizing pos with
  | nil => exact ⟨[], rfl, rfl, rfl⟩
  | cons mf mfs ih =>
    refine ExceptMeets.ite (fun _ => gives_corrupt) fun _ => ?_
    refine (index_gives lp pos).bind fun value hvalue => ?_
    refine (ih (pos + 1)).bind fun r hr => ?_
    obtain ⟨values, hlen, hdrop, hfv⟩ := hr
    refine ⟨value :: values, by rw [List.length_cons, hlen, List.length_cons], ?_, ?_⟩
    · rw [drop_of_getElem? hvalue, hdrop]
      rfl
    · rw [hfv]
      rfl

theorem readPairs_gives (lp : List CompactEntry) (n pos : Nat) :
    Gives (readPairs lp n pos) (fun r => ∃ pairs : List (CompactEntry × CompactEntry),
      pairs.length = n ∧ lp.drop pos = (pairs.flatMap fun p => [p.1, p.2]) ++ lp.drop r.2 ∧
        r.1 = pairs.map fun p => (p.1.intoBytes, p.2.intoBytes)) := by
  induction n generalizing pos with
  | zero => exact ⟨[], rfl, rfl, rfl⟩
  | succ n ih =>
    refine (add64_gives pos 1).bind fun next hnext => ?_
    obtain ⟨rfl, -⟩ := hnext
    refine ExceptMeets.ite (fun _ => gives_corrupt) fun _ => ?_
    refine (index_gives lp pos).bind fun field hfield => ?_
    refine (index_gives lp (pos + 1)).bind fun value hvalue => ?_
    refine (ih (pos + 1 + 1)).bind fun r hr => ?_
    obtain ⟨pairs, hlen, hdrop, hfv⟩ := hr
    refine ⟨(field, value) :: pairs, by rw [List.length_cons, hlen], ?_, ?_⟩
    · rw [drop_of_getElem? hfield, drop_of_getElem? hvalue, hdrop]
      rfl
    · rw [hfv]
      rfl

theorem readFieldValues_gives (lp masterFields : List CompactEntry) (sameFields : Bool)
    (pos : Nat) :
    Gives (readFieldValues lp (masterFields.map CompactEntry.intoBytes) sameFields pos)
      (fun r => ∃ f : Fields, f.isSame = sameFields ∧ f.Matches masterFields ∧
        lp.drop pos = f.elements ++ lp.drop r.2 ∧ r.1 = f.value masterFields) := by
  cases sameFields with
  | true =>
    refine (readSameFields_gives lp _ pos).mono fun r hr => ?_
    obtain ⟨values, hlen, hdrop, hfv⟩ := hr
    exact ⟨.same values, rfl, by rwa [List.length_map] at hlen, hdrop, hfv⟩
  | false =>
    rw [readFieldValues, if_neg Bool.false_ne_true]
    refine ExceptMeets.ite (fun _ => gives_corrupt) fun _ => ?_
    refine (index_gives lp pos).bind fun e he => ?_
    refine (lpUsize_gives e _).bind fun nf hnf => ?_
    refine (readPairs_gives lp nf (pos + 1)).mono fun r hr => ?_
    obtain ⟨pairs, hlen, hdrop, hfv⟩ := hr
    refine ⟨.own pairs, rfl, trivial, ?_, hfv⟩
    rw [drop_of_getElem? he, hdrop, hnf, ← hlen]
    rfl

/-! ### Records -/

theorem addDelta_gives (base delta : Nat) (msg : String) :
    Gives (addDelta base delta msg) (fun n => n = base + delta ∧ base + delta < 2 ^ 64) :=
  ExceptMeets.ite (fun h => ⟨rfl, h⟩) fun _ => gives_corrupt

theorem decodeRecord_gives (masterMs masterSeq : Nat) (lp masterFields : List CompactEntry)
    (pos : Nat) :
    Gives (decodeRecord masterMs masterSeq lp (masterFields.map CompactEntry.intoBytes) pos)
      (fun res => ∃ r : StoredRecord, r.Valid masterMs masterSeq masterFields ∧
        lp.drop pos = r.elements ++ lp.drop res.2.2 ∧ res.1 = r.deleted ∧
        res.2.1 = r.entry masterMs masterSeq masterFields) := by
  refine (add64_gives pos 2).bind fun ahead _ => ?_
  refine ExceptMeets.ite (fun _ => gives_corrupt) fun _ => ?_
  refine (index_gives lp pos).bind fun e0 h0 => ?_
  refine (lpU32_gives e0 _).bind fun flags hflags => ?_
  refine (index_gives lp (pos + 1)).bind fun e1 h1 => ?_
  refine (lpU64_gives e1 _).bind fun msDelta hms => ?_
  refine (index_gives lp (pos + 2)).bind fun e2 h2 => ?_
  refine (lpU64_gives e2 _).bind fun seqDelta hseq => ?_
  refine (addDelta_gives masterMs msDelta _).bind fun entryMs hentryMs => ?_
  refine (addDelta_gives masterSeq seqDelta _).bind fun entrySeq hentrySeq => ?_
  refine (readFieldValues_gives lp masterFields _ (pos + 3)).bind fun fv hfv => ?_
  obtain ⟨fieldValues, next⟩ := fv
  obtain ⟨f, hsame, hmatch, hdrop, hvalue⟩ := hfv
  refine ExceptMeets.ite (fun _ => gives_corrupt) fun _ => ?_
  refine (index_gives lp next).bind fun e3 h3 => ?_
  refine (lpU64_gives e3 _).bind fun lpCount hcount => ?_
  refine ⟨⟨flags, msDelta, seqDelta, f, lpCount⟩, ⟨hflags.2, hsame, hmatch, hentryMs.2,
    hentrySeq.2⟩, ?_, rfl, ?_⟩
  · rw [drop_of_getElem? h0, drop_of_getElem? h1, drop_of_getElem? h2, hdrop, drop_of_getElem? h3,
      hflags.1, hms, hseq, hcount, StoredRecord.elements, List.cons_append, List.cons_append,
      List.cons_append, List.append_assoc]
    rfl
  · rw [StoredRecord.entry, ← hentryMs.1, ← hentrySeq.1, ← hvalue]

theorem decodeRecords_gives (masterMs masterSeq : Nat) (lp masterFields : List CompactEntry)
    (budget total pos : Nat) (entries : List StreamEntry) :
    Gives (decodeRecords masterMs masterSeq lp (masterFields.map CompactEntry.intoBytes) budget
        total pos entries)
      (fun res => ∃ records : List StoredRecord, records.length = total ∧
        (∀ r ∈ records, r.Valid masterMs masterSeq masterFields) ∧
        lp.drop pos = records.flatMap StoredRecord.elements ++ lp.drop res.2 ∧
        res.1 = entries ++ (records.filter fun r => !r.deleted).map
          (StoredRecord.entry masterMs masterSeq masterFields)) := by
  induction total generalizing pos entries with
  | zero => exact ⟨[], rfl, by simp, rfl, by simp⟩
  | succ total ih =>
    refine (decodeRecord_gives masterMs masterSeq lp masterFields pos).bind fun res hres => ?_
    obtain ⟨isDeleted, entry, next⟩ := res
    obtain ⟨r, hvalid, hdrop, hdeleted, hentry⟩ := hres
    dsimp only at hdrop hdeleted hentry
    refine ExceptMeets.ite (fun hdel => ?_) fun hlive => ?_
    · refine (ih next entries).mono fun res hres => ?_
      obtain ⟨records, hlen, hall, hrest, hvalue⟩ := hres
      rw [hdeleted] at hdel
      refine ⟨r :: records, by rw [List.length_cons, hlen],
        List.forall_mem_cons.mpr ⟨hvalid, hall⟩, ?_, ?_⟩
      · rw [hdrop, hrest, List.flatMap_cons, List.append_assoc]
      · rw [hvalue, List.filter_cons_of_neg (by simp [hdel])]
    · refine ExceptMeets.ite (fun _ => gives_corrupt) fun _ => ?_
      refine (ih next (entries ++ [entry])).mono fun res hres => ?_
      obtain ⟨records, hlen, hall, hrest, hvalue⟩ := hres
      rw [hdeleted] at hlive
      refine ⟨r :: records, by rw [List.length_cons, hlen],
        List.forall_mem_cons.mpr ⟨hvalid, hall⟩, ?_, ?_⟩
      · rw [hdrop, hrest, List.flatMap_cons, List.append_assoc]
      · rw [hvalue, List.filter_cons_of_pos (by simpa using hlive), List.map_cons, hentry,
          List.append_assoc, List.singleton_append]

/-! ### Listpacks -/

theorem length_le_flatMap_elements (records : List StoredRecord) :
    records.length ≤ (records.flatMap StoredRecord.elements).length := by
  induction records with
  | nil => exact le_rfl
  | cons r rs ih =>
    rw [List.length_cons, List.flatMap_cons, List.length_append, StoredRecord.elements,
      List.length_cons]
    omega

/-- The master fields, the number of records and the position of the first one
(stream.rs:67-108). -/
def readHeader (lp : List CompactEntry) : Res (List Bytes × Nat × Nat) :=
  if lp.length < 3 then corrupt "stream listpack too short for header"
  else do
    let count ← lpU64 (← index lp 0) "count"
    let deleted ← lpU64 (← index lp 1) "deleted"
    let numMasterFields ← lpUsize (← index lp 2) "num_fields"
    let (masterFields, pos) ← readMasterFields lp numMasterFields 3
    if pos ≥ lp.length then corrupt "stream: missing terminator after master fields"
    else
      let terminator ← index lp pos
      if terminator ≠ .int 0 then
        corrupt "stream: expected zero terminator after master fields"
      else pure (masterFields, min (count + deleted) (2 ^ 64 - 1), pos + 1)

/-- The check behind the records (stream.rs:206-211). -/
def checkTrailing (lp : List CompactEntry) (entries : List StreamEntry) (pos : Nat) :
    Res (List StreamEntry) :=
  if pos ≠ lp.length then do
    let trailing ← sub64 lp.length pos
    corrupt s!"stream listpack has {trailing} trailing entries beyond count+deleted header"
  else pure entries

theorem checkTrailing_ok {lp : List CompactEntry} {entries es : List StreamEntry} {pos : Nat} :
    checkTrailing lp entries pos = .ok es ↔ pos = lp.length ∧ entries = es := by
  rw [checkTrailing]
  by_cases hpos : pos = lp.length
  · rw [if_neg (not_not.mpr hpos)]
    simp [hpos, pure, Except.pure]
  · rw [if_pos hpos, bind_eq_ok_iff]
    simp [hpos, corrupt]

theorem decodeElements_eq (masterMs masterSeq : Nat) (lp : List CompactEntry) (budget : Nat) :
    decodeElements masterMs masterSeq lp budget = (do
      let header ← readHeader lp
      let records ← decodeRecords masterMs masterSeq lp header.1 budget header.2.1 header.2.2 []
      checkTrailing lp records.1 records.2) := by
  unfold decodeElements readHeader
  by_cases hshort : lp.length < 3
  · rw [if_pos hshort, if_pos hshort]
    rfl
  · rw [if_neg hshort, if_neg hshort]
    simp only [bind_assoc]
    refine bind_congr fun e0 => bind_congr fun count => bind_congr fun e1 => bind_congr fun deleted =>
      bind_congr fun e2 => bind_congr fun numMasterFields => bind_congr fun mf => ?_
    split
    · rfl
    · simp only [bind_assoc]
      refine bind_congr fun terminator => ?_
      split
      · rfl
      · rfl

theorem readHeader_gives (lp : List CompactEntry) :
    Gives (readHeader lp) (fun header => ∃ (count deleted : Nat) (masterFields : List CompactEntry),
      header.1 = masterFields.map CompactEntry.intoBytes ∧
      header.2.1 = min (count + deleted) (2 ^ 64 - 1) ∧
      lp = .int count :: .int deleted :: .int masterFields.length ::
        (masterFields ++ .int 0 :: lp.drop header.2.2)) := by
  refine ExceptMeets.ite (fun _ => gives_corrupt) fun _ => ?_
  refine (index_gives lp 0).bind fun e0 h0 => ?_
  refine (lpU64_gives e0 _).bind fun count hcount => ?_
  refine (index_gives lp 1).bind fun e1 h1 => ?_
  refine (lpU64_gives e1 _).bind fun deleted hdeleted => ?_
  refine (index_gives lp 2).bind fun e2 h2 => ?_
  refine (lpUsize_gives e2 _).bind fun numMasterFields hnum => ?_
  refine (readMasterFields_gives lp numMasterFields 3).bind fun mf hmf => ?_
  obtain ⟨fieldBytes, pos⟩ := mf
  obtain ⟨masterFields, hlen, hdrop, hbytes⟩ := hmf
  refine ExceptMeets.ite (fun _ => gives_corrupt) fun _ => ?_
  refine (index_gives lp pos).bind fun terminator hterm => ?_
  refine ExceptMeets.ite (fun _ => gives_corrupt) fun hzero => ?_
  refine ⟨count, deleted, masterFields, hbytes, rfl, ?_⟩
  have hlp : lp.drop 0 = .int count :: .int deleted :: .int masterFields.length ::
      (masterFields ++ .int 0 :: lp.drop (pos + 1)) := by
    rw [drop_of_getElem? h0, drop_of_getElem? h1, drop_of_getElem? h2, hdrop,
      drop_of_getElem? hterm, hcount, hdeleted, hnum, hlen, not_not.mp hzero]
  exact hlp

theorem decodeElements_gives (masterMs masterSeq : Nat) {lp : List CompactEntry}
    (hlp : lp.length < 2 ^ 63) (budget : Nat) :
    Gives (decodeElements masterMs masterSeq lp budget)
      (Accounts masterMs masterSeq lp) := by
  rw [decodeElements_eq]
  refine (readHeader_gives lp).bind fun header hheader => ?_
  obtain ⟨count, deleted, masterFields, hfields, htotal, hshape⟩ := hheader
  rw [hfields]
  refine (decodeRecords_gives masterMs masterSeq lp masterFields budget _ _ []).bind fun res hres => ?_
  obtain ⟨records, hlen, hall, hrest, hvalue⟩ := hres
  refine (gives_refl (checkTrailing lp res.1 res.2)).mono fun entries hend => ?_
  obtain ⟨hpos, rfl⟩ := checkTrailing_ok.mp hend
  rw [hrest, hpos, List.drop_length, List.append_nil] at hshape
  -- the header cannot promise more records than there are elements
  have hmany := length_le_flatMap_elements records
  have hlplen := congrArg List.length hshape
  simp only [List.length_cons, List.length_append] at hlplen
  refine ⟨count, deleted, masterFields, records, hshape, by omega, hall, ?_⟩
  rw [hvalue, List.nil_append]

/-- An accepted listpack is the header and the records it counts, with nothing left over,
and the entries are the records that are not deleted. -/
theorem decodeStreamListpack_accounts (masterMs masterSeq : Nat) (lpData : Bytes) (budget : Nat)
    (entries : List StreamEntry)
    (h : decodeStreamListpack masterMs masterSeq lpData budget = .ok entries) :
    ∃ lp, Listpack.decode lpData = .ok lp ∧ Accounts masterMs masterSeq lp entries := by
  rw [decodeStreamListpack] at h
  cases hlp : Listpack.decode lpData with
  | error e =>
    rw [hlp] at h
    cases h
  | ok lp =>
    rw [hlp, ok_bind] at h
    have hsize := Listpack.decode_length_lt hlp
    exact ⟨lp, rfl, (decodeElements_gives masterMs masterSeq (by omega) budget).of_ok h⟩

theorem decodeStreamListpack_accounts_two : ∃ lp, Listpack.decode twoRecordsForm.bytes = .ok lp ∧
    Accounts 1 5 lp [⟨"2-9", [([102], [118])]⟩] :=
  decodeStreamListpack_accounts 1 5 twoRecordsForm.bytes 1 [⟨"2-9", [([102], [118])]⟩]
    (by decide +kernel)

/-! ### The budget -/

theorem decodeRecords_keeps (masterMs masterSeq : Nat) (lp : List CompactEntry)
    (masterFields : List Bytes) (budget total pos : Nat) (entries : List StreamEntry) :
    Gives (decodeRecords masterMs masterSeq lp masterFields budget total pos entries)
      (fun res => entries.length ≤ res.1.length) := by
  induction total generalizing pos entries with
  | zero => exact le_rfl
  | succ total ih =>
    refine (gives_refl (decodeRecord masterMs masterSeq lp masterFields pos)).bind fun r _ => ?_
    refine ExceptMeets.ite (fun _ => ih r.2.2 entries) fun _ => ?_
    refine ExceptMeets.ite (fun _ => gives_corrupt) fun _ => ?_
    refine (ih r.2.2 (entries ++ [r.2.1])).mono fun res hres => ?_
    rw [List.length_append] at hres
    omega

/-- A smaller budget only refuses records that are too many. -/
theorem decodeRecords_budget (masterMs masterSeq : Nat) (lp : List CompactEntry)
    (masterFields : List Bytes) {budget limit : Nat} (hle : budget ≤ limit) (total pos : Nat)
    (entries : List StreamEntry) (hkept : entries.length ≤ budget)
    (res : List StreamEntry × Nat) :
    decodeRecords masterMs masterSeq lp masterFields budget total pos entries = .ok res ↔
      decodeRecords masterMs masterSeq lp masterFields limit total pos entries = .ok res ∧
        res.1.length ≤ budget := by
  induction total generalizing pos entries with
  | zero =>
    refine ⟨fun h => ⟨h, ?_⟩, fun h => h.1⟩
    cases h
    exact hkept
  | succ total ih =>
    rw [decodeRecords, decodeRecords]
    cases decodeRecord masterMs masterSeq lp masterFields pos with
    | error e => simp
    | ok r =>
      obtain ⟨isDeleted, entry, next⟩ := r
      rw [ok_bind, ok_bind]
      dsimp only
      by_cases hdel : isDeleted = true
      · rw [if_pos hdel, if_pos hdel]
        exact ih next entries hkept
      · rw [if_neg hdel, if_neg hdel]
        by_cases hfull : entries.length ≥ budget
        · rw [if_pos hfull]
          constructor
          · intro h
            cases h
          rintro ⟨hmore, hfit⟩
          by_cases hlimit : entries.length ≥ limit
          · rw [if_pos hlimit] at hmore
            cases hmore
          · rw [if_neg hlimit] at hmore
            have hgrow := (decodeRecords_keeps _ _ _ _ _ _ _ _).of_ok hmore
            rw [List.length_append, List.length_singleton] at hgrow
            omega
        · rw [if_neg hfull, if_neg (by omega)]
          exact ih next (entries ++ [entry]) (by rw [List.length_append, List.length_singleton]; omega)

theorem decodeElements_budget (masterMs masterSeq : Nat) (lp : List CompactEntry)
    {budget limit : Nat} (hle : budget ≤ limit) (entries : List StreamEntry) :
    decodeElements masterMs masterSeq lp budget = .ok entries ↔
      decodeElements masterMs masterSeq lp limit = .ok entries ∧ entries.length ≤ budget := by
  have hiff := fun header : List Bytes × Nat × Nat => decodeRecords_budget masterMs masterSeq lp
    header.1 hle header.2.1 header.2.2 [] (Nat.zero_le _)
  simp only [decodeElements_eq, bind_eq_ok_iff, checkTrailing_ok]
  constructor
  · rintro ⟨header, hheader, res, hres, hstop, rfl⟩
    obtain ⟨hlimit, hfit⟩ := (hiff header res).mp hres
    exact ⟨⟨header, hheader, res, hlimit, hstop, rfl⟩, hfit⟩
  · rintro ⟨⟨header, hheader, res, hres, hstop, rfl⟩, hfit⟩
    exact ⟨header, hheader, res, (hiff header res).mpr ⟨hres, hfit⟩, hstop, rfl⟩

theorem decodeStreamListpack_budget (masterMs masterSeq : Nat) (lpData : Bytes)
    {budget limit : Nat} (hle : budget ≤ limit) (entries : List StreamEntry) :
    decodeStreamListpack masterMs masterSeq lpData budget = .ok entries ↔
      decodeStreamListpack masterMs masterSeq lpData limit = .ok entries ∧
        entries.length ≤ budget := by
  simp only [decodeStreamListpack, bind_eq_ok_iff, decodeElements_budget masterMs masterSeq _ hle]
  constructor
  · rintro ⟨lp, hlp, hdec, hfit⟩
    exact ⟨⟨lp, hlp, hdec⟩, hfit⟩
  · rintro ⟨⟨lp, hlp, hdec⟩, hfit⟩
    exact ⟨lp, hlp, hdec, hfit⟩

end ValkeyRdb.Stream
