import ValkeyRdb.Reader.Prefix

/-!
# How long a reader can run

The number of items is bounded by the number of bytes, and so is the number of rounds of
every counted loop, whatever count the file claims. After the end there is nothing.
-/

namespace ValkeyRdb

open ReadAction (Consumes CutShort)

/-! ### Counted loops -/

theorem readQuicklistNode_consumes : Consumes readQuicklistNode := readString_consumes.bind _

theorem readQuicklist2Node_consumes : Consumes readQuicklist2Node :=
  readLengthValue_consumes.bind _

theorem readStreamListpack_consumes (acc : StreamAcc) : Consumes (readStreamListpack acc) :=
  readString_consumes.bind _

theorem skipPelEntry_consumes : Consumes skipPelEntry :=
  Consumes.bind (ReadAction.consumes_readExact (by decide)) _

theorem skipConsumer_consumes (typeCode : UInt8) : Consumes (skipConsumer typeCode) :=
  readString_consumes.bind _

theorem skipConsumerGroup_consumes (typeCode : UInt8) : Consumes (skipConsumerGroup typeCode) :=
  readString_consumes.bind _

theorem skipSlotRange_consumes : Consumes skipSlotRange := readLengthValue_consumes.bind _

theorem readNElements_cutShort {typeCode : UInt8} (hp : isPlainType typeCode = true) :
    CutShort (readNElements typeCode) := by
  have hpair : Consumes readZsetPair := readString_consumes.bind _
  have hfield : Consumes readHashField := readString_consumes.bind _
  have hpair2 : Consumes readZset2Pair := readString_consumes.bind _
  have hfield2 : Consumes readHash2Field := readString_consumes.bind _
  unfold isPlainType at hp
  split at hp
  · exact readString_consumes.cutShort_replicate.bind _
  · exact readString_consumes.cutShort_replicate.bind _
  · exact hpair.cutShort_replicate.bind _
  · exact hfield.cutShort_replicate.bind _
  · exact hpair2.cutShort_replicate.bind _
  · exact hfield2.cutShort_replicate.bind _
  · cases hp

/-- The loops whose number of rounds the file states. -/
structure CountedLoopsEnd : Prop where
  elements : ∀ typeCode, isPlainType typeCode = true → CutShort (readNElements typeCode)
  quicklistNodes : CutShort fun n => ReadAction.replicate n readQuicklistNode
  quicklist2Nodes : CutShort fun n => ReadAction.replicate n readQuicklist2Node
  listpacks : ∀ acc, CutShort fun n => ReadAction.iterate n readStreamListpack acc
  groups : ∀ typeCode, CutShort fun n => ReadAction.replicate n (skipConsumerGroup typeCode)
  pel : CutShort fun n => ReadAction.replicate n skipPelEntry
  consumers : ∀ typeCode, CutShort fun n => ReadAction.replicate n (skipConsumer typeCode)
  consumerPel : CutShort fun n => ReadAction.replicate n (readExactVec 16)
  slotRanges : CutShort fun n => ReadAction.replicate n skipSlotRange
  /-- The records of a stream listpack, for which the elements are what is left to read. -/
  records : ∀ masterMs masterSeq (lp : List CompactEntry) masterFields budget m n pos entries,
    lp.length < 2 ^ 63 → pos ≤ lp.length → lp.length - pos < m → m ≤ n →
      Stream.decodeRecords masterMs masterSeq lp masterFields budget n pos entries =
        Stream.decodeRecords masterMs masterSeq lp masterFields budget m pos entries

theorem countedLoopsEnd : CountedLoopsEnd where
  elements _ hp := readNElements_cutShort hp
  quicklistNodes := readQuicklistNode_consumes.cutShort_replicate
  quicklist2Nodes := readQuicklist2Node_consumes.cutShort_replicate
  listpacks acc := Consumes.cutShort_iterate readStreamListpack_consumes acc
  groups typeCode := (skipConsumerGroup_consumes typeCode).cutShort_replicate
  pel := skipPelEntry_consumes.cutShort_replicate
  consumers typeCode := (skipConsumer_consumes typeCode).cutShort_replicate
  consumerPel := (ReadAction.consumes_readExact (by decide)).cutShort_replicate
  slotRanges := skipSlotRange_consumes.cutShort_replicate
  records ms seq lp mfs budget m n pos entries hlp hpos hm hmn :=
    Stream.decodeRecords_cutShort ms seq hlp mfs budget m n pos entries hpos hm hmn

/-! ### Items -/

theorem steps_itemBound {r r' : RdbReader} {items : List (Res RdbEntry)} (hr : r.Valid)
    (hs : Steps RdbReader.next r items r') : items.length + r'.itemBound ≤ r.itemBound := by
  induction hs with
  | nil => simp
  | @cons s s' s'' x xs hn _ ih =>
    have hlt := next_bound hr hn
    have hvalid := (next_safe hr).1
    rw [hn] at hvalid
    have hrest := ih hvalid
    rw [List.length_cons]
    omega

theorem readHeader_length {input : Bytes} {header : RdbHeader} {reader : CrcReader}
    (h : readHeader.run ⟨input, 0⟩ = (.ok header, reader)) :
    reader.inner.length + 9 = input.length := by
  obtain ⟨buf, s, hread, hparse⟩ := ReadAction.bind_eq_ok h
  have hs : s = reader := (Prod.mk.inj hparse).2
  rw [ReadAction.run_readExact] at hread
  obtain ⟨hbuf, hrest⟩ := Prod.mk.inj hread
  by_cases hlen : 9 ≤ input.length
  · rw [← hs, ← hrest]
    change (input.drop 9).length + 9 = input.length
    rw [List.length_drop]
    omega
  · rw [if_neg hlen] at hbuf
    cases hbuf

theorem new_pendingBytes {input : Bytes} {r : RdbReader} (h : RdbReader.new input = .ok r) :
    r.pendingBytes + 9 ≤ input.length := by
  rw [RdbReader.new] at h
  rcases hh : readHeader.run ⟨input, 0⟩ with ⟨f | header, reader⟩
  · rw [hh] at h
    cases h
  · rw [hh] at h
    dsimp only at h
    have hlen := readHeader_length hh
    obtain ⟨r₁, -, hmoves, -, hend⟩ := readPreamble_cases (RdbReader.afterHeader reader header)
    have hle : r₁.reader.inner.length ≤ reader.inner.length := hmoves.length_le
    rcases hend with ⟨b, rest, hi, -, he⟩ | ⟨f, r', -, he⟩
    · rw [he] at h
      cases h
      rw [hi, List.length_cons] at hle
      simp only [RdbReader.pendingBytes, RdbReader.afterByte, Option.toList_some,
        List.length_singleton]
      omega
    · rw [he] at h
      cases h

theorem Reachable.next_none_finished {input : Bytes} {r s : RdbReader} (h : Reachable input r)
    (hn : r.next = (none, s)) : s.finished = true := by
  cases hf : r.finished with
  | true =>
    rw [next_finished hf] at hn
    cases hn
    exact hf
  | false =>
    obtain ⟨re, he, -⟩ := h.next_none hf hn
    rcases he.next with ⟨-, he'⟩ | ⟨t, rest, -, -, ⟨-, he'⟩ | ⟨-, -, -, he'⟩ | ⟨-, -, -, msg, he'⟩⟩
    · rw [he'] at hn
      cases hn
    · rw [he'] at hn
      cases hn
      rfl
    · rw [he'] at hn
      cases hn
      rfl
    · rw [he'] at hn
      cases hn

/-- Iterating any configured reader of `input` ends after at most as many items as `input`
has bytes; no call hangs, and the counted loops in it are cut short by the input; and a
call that returns nothing, or an error that is not about an unknown type, is followed by
calls that return nothing. -/
theorem iteration_ends :
    (∀ input limit r, RdbReader.new input = .ok r → ∃ items r',
      Yields RdbReader.next (r.configure limit) items r' ∧ items.length ≤ input.length) ∧
    (∀ input, RdbReader.new input ≠ .error .diverge) ∧
    (∀ input r, Reachable input r → r.next.1 ≠ some (.error .diverge)) ∧
    CountedLoopsEnd ∧
    (∀ input r, Reachable input r →
      (r.next.1 = none ∨ ∃ x, r.next.1 = some x ∧ Terminal x) →
        ∀ items r', Steps RdbReader.next r.next.2 items r' → items = [] ∧ r'.next = (none, r')) := by
  refine ⟨?_, ?_, ?_, countedLoopsEnd, ?_⟩
  · intro input limit r hnew
    have hreach := (Reachable.new hnew).configure limit
    obtain ⟨m, hs, hend⟩ := hreach.yields
    refine ⟨_, _, ⟨m, hs, hend⟩, ?_⟩
    have hcount := steps_itemBound hreach.valid hs
    have hpending := new_pendingBytes hnew
    have hbound : (r.configure limit).itemBound ≤ r.pendingBytes + 1 := by
      rw [RdbReader.itemBound]
      split
      · omega
      · cases limit <;> exact le_rfl
    omega
  · intro input h
    have hends := new_ends input
    rw [h] at hends
    exact hends
  · intro input r hr h
    exact (next_safe hr.valid).2 _ h
  · intro input r hr hlast items r' hs
    have hfinished : r.next.2.finished = true := by
      rcases hn : r.next with ⟨_ | x, s⟩
      · exact hr.next_none_finished hn
      · rw [hn] at hlast
        rcases hlast with hnone | ⟨y, hy, hterm⟩
        · cases hnone
        · cases hy
          exact next_terminal hn hterm
    have hnil := steps_finished hfinished hs
    subst hnil
    cases hs
    exact ⟨rfl, next_finished hfinished⟩

end ValkeyRdb
