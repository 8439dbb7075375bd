import ValkeyRdb.Format.Collections
import ValkeyRdb.Format.Modules
import ValkeyRdb.Format.StreamAccepted
import ValkeyRdb.Reader.Safety

/-!
# The payload of a stream

A stream value holds its listpacks, its counters and its consumer groups; newer types add
fields. Whatever the strings that should be listpacks contain, the reader goes through the
whole payload and reports the first error only then.
-/

namespace ValkeyRdb

open ReadAction (Decodes DecodesWhen FailsWith Drains lift readExact)

/-! ### Consumer groups -/

inductive StreamVersion where
  | one
  | two
  | three

def StreamVersion.typeCode : StreamVersion → UInt8
  | one => rdbTypeStreamListpacks
  | two => rdbTypeStreamListpacks2
  | three => rdbTypeStreamListpacks3

/-- The bytes of a field that types have from `minType` on. -/
def sinceBytes (minType typeCode : UInt8) (b : Bytes) : Bytes := if minType ≤ typeCode then b else []

theorem readSince_decodes {α : Type} {p : ReadM α} {b : Bytes} {x : α} (h : Decodes p b x)
    (minType typeCode : UInt8) :
    Decodes (readSince minType typeCode p) (sinceBytes minType typeCode b)
      (if minType ≤ typeCode then some x else none) := by
  rw [readSince, sinceBytes]
  by_cases hm : minType ≤ typeCode
  · rw [if_pos hm, if_pos hm, if_pos hm]
    exact h.map some
  · rw [if_neg hm, if_neg hm, if_neg hm]
    exact Decodes.pure none

/-- An entry of a group's pending list. -/
structure PelEntryForm where
  id : Raw 16
  deliveryTime : Raw 8
  deliveryCount : LenForm

structure ConsumerForm where
  name : StringForm
  seenTime : Raw 8
  activeTime : Raw 8
  pel : Counted (Raw 16)

structure GroupForm where
  name : StringForm
  lastIdMs : LenForm
  lastIdSeq : LenForm
  entriesRead : LenForm
  pel : Counted PelEntryForm
  consumers : Counted ConsumerForm

def PelEntryForm.bytes (p : PelEntryForm) : Bytes :=
  p.id.val ++ (p.deliveryTime.val ++ p.deliveryCount.bytes)

namespace ConsumerForm

def bytes (version : StreamVersion) (c : ConsumerForm) : Bytes :=
  c.name.bytes ++ (c.seenTime.val ++
    (sinceBytes rdbTypeStreamListpacks3 version.typeCode c.activeTime.val ++
      c.pel.bytes Subtype.val))

def Fits (c : ConsumerForm) : Prop := c.name.Fits ∧ c.pel.items.length ≤ maxAllocBytes

end ConsumerForm

namespace GroupForm

def bytes (version : StreamVersion) (g : GroupForm) : Bytes :=
  g.name.bytes ++ (g.lastIdMs.bytes ++ (g.lastIdSeq.bytes ++
    (sinceBytes rdbTypeStreamListpacks2 version.typeCode g.entriesRead.bytes ++
      (g.pel.bytes PelEntryForm.bytes ++ g.consumers.bytes (ConsumerForm.bytes version)))))

def Fits (g : GroupForm) : Prop :=
  g.name.Fits ∧ g.pel.items.length ≤ maxAllocBytes ∧ g.consumers.Fits ConsumerForm.Fits

end GroupForm

theorem PelEntryForm.decodes (p : PelEntryForm) : Decodes skipPelEntry p.bytes () := by
  have hcount := p.deliveryCount.decodesValue.map fun _ => ()
  exact p.id.decodes.bind (p.deliveryTime.decodesI64.bind hcount)

theorem ConsumerForm.decodes (version : StreamVersion) (c : ConsumerForm) :
    DecodesWhen c.Fits (skipConsumer version.typeCode) (c.bytes version) () := by
  have hactive := readSince_decodes c.activeTime.decodesI64 rdbTypeStreamListpacks3
    version.typeCode
  have hpel := c.pel.map "stream consumer PEL count" (fun id _ => id.decodes.when) fun _ => ()
  have hskip : DecodesWhen (c.name.Fits ∧ c.pel.Fits fun _ => True)
      (skipConsumer version.typeCode) (c.bytes version) () :=
    c.name.decodes.bind (c.seenTime.decodesI64.bind_when (hactive.bind_when hpel))
  exact hskip.congr (by simp [ConsumerForm.Fits, Counted.Fits])

theorem GroupForm.decodes (version : StreamVersion) (g : GroupForm) :
    DecodesWhen g.Fits (skipConsumerGroup version.typeCode) (g.bytes version) () := by
  have hread := readSince_decodes g.entriesRead.decodesValue rdbTypeStreamListpacks2
    version.typeCode
  have hconsumers := g.consumers.map "stream consumer count"
    (fun c _ => c.decodes version) fun _ => ()
  have hskip : DecodesWhen (g.name.Fits ∧ g.pel.Fits (fun _ => True) ∧
      g.consumers.Fits ConsumerForm.Fits) (skipConsumerGroup version.typeCode) (g.bytes version) () :=
    g.name.decodes.bind (g.lastIdMs.decodesValue.bind_when (g.lastIdSeq.decodesValue.bind_when
      (hread.bind_when (g.pel.bind (k := fun _ => do
        let numConsumers ← readCount "stream consumer count"
        let _consumers ← ReadAction.replicate numConsumers (skipConsumer version.typeCode)
        pure ()) "stream PEL count" (fun p _ => p.decodes.when) hconsumers))))
  exact hskip.congr (by simp [GroupForm.Fits, Counted.Fits])

/-! ### Listpacks -/

/-- A master ID and a listpack, as the two strings that the reader has read. -/
abbrev NodeStrings := Bytes × Bytes

/-- The entries of a listpack, with no limit on their number. -/
def nodeDecoded (n : NodeStrings) : Res (List StreamEntry) :=
  Stream.decodeStreamListpack (beVal (n.1.take 8)) (beVal (n.1.drop 8)) n.2 (2 ^ 64 - 1)

def nodeEntries (n : NodeStrings) : List StreamEntry :=
  match nodeDecoded n with
  | .ok entries => entries
  | .error _ => []

def NodeGood (n : NodeStrings) : Prop := n.1.length = 16 ∧ nodeDecoded n = .ok (nodeEntries n)

def pushNode (acc : StreamAcc) (n : NodeStrings) : StreamAcc :=
  match streamAccPush acc n.1 n.2 with
  | .ok acc' => acc'
  | .error _ => acc

theorem streamAccPush_failed (acc : StreamAcc) (n : NodeStrings)
    (h : acc.deferredErr.isSome = true) : streamAccPush acc n.1 n.2 = .ok acc := by
  rw [streamAccPush, if_pos h]

/-- The listpack is good and its entries fit what is left of the cap. -/
def NodeKept (kept : Nat) (n : NodeStrings) : Prop :=
  NodeGood n ∧ (nodeEntries n).length ≤ Stream.maxStreamEntries - kept

/-- Without an earlier error the entries of a listpack are kept, or an error is. -/
theorem streamAccPush_open (acc : StreamAcc) (n : NodeStrings) (hlen : n.2.length < 2 ^ 63)
    (h : acc.deferredErr = none) :
    (NodeKept acc.allEntries.length n →
      streamAccPush acc n.1 n.2 = .ok ⟨acc.allEntries ++ nodeEntries n, none⟩) ∧
    (¬NodeKept acc.allEntries.length n →
      ∃ e, streamAccPush acc n.1 n.2 = .ok ⟨acc.allEntries, some e⟩) := by
  obtain ⟨all, err⟩ := acc
  cases h
  dsimp only
  rw [streamAccPush, if_neg (by simp)]
  by_cases h16 : n.1.length = 16
  · have hms : slice n.1 0 8 = .ok (n.1.take 8) := by
      rw [slice_eq ⟨by decide, by omega⟩, List.drop_zero]
    have hseq : slice n.1 8 16 = .ok (n.1.drop 8) := by
      rw [slice_eq ⟨by decide, by omega⟩, List.take_of_length_le (by omega)]
    have hcapacity : Stream.maxStreamEntries < 2 ^ 64 := by decide
    have hbudget := Stream.decodeStreamListpack_budget (beVal (n.1.take 8)) (beVal (n.1.drop 8)) n.2
      (show Stream.maxStreamEntries - all.length ≤ 2 ^ 64 - 1 by omega)
    have hreturns := Stream.decodeStreamListpack_returns (beVal (n.1.take 8)) (beVal (n.1.drop 8))
      hlen (Stream.maxStreamEntries - all.length)
    rw [if_neg (not_not.mpr h16), hms, ok_bind, hseq, ok_bind]
    dsimp only
    refine ⟨fun hkept => ?_, fun hlost => ?_⟩
    · obtain ⟨⟨-, hdec⟩, hfit⟩ := hkept
      rw [(hbudget (nodeEntries n)).mpr ⟨hdec, hfit⟩]
    · cases hdec : Stream.decodeStreamListpack (beVal (n.1.take 8)) (beVal (n.1.drop 8)) n.2
          (Stream.maxStreamEntries - all.length) with
      | ok entries =>
        obtain ⟨hlimit, hfit⟩ := (hbudget entries).mp hdec
        have hentries : nodeEntries n = entries := by
          rw [nodeEntries, nodeDecoded, hlimit]
        exact absurd ⟨⟨h16, by rw [hentries]; exact hlimit⟩, by rw [hentries]; exact hfit⟩ hlost
      | error f =>
        rw [hdec] at hreturns
        cases f with
        | error e => exact ⟨e, rfl⟩
        | panic => exact absurd hreturns (fun h => h)
        | diverge => exact absurd hreturns (fun h => h)
  · rw [if_pos h16]
    exact ⟨fun hkept => absurd hkept.1.1 h16, fun _ => ⟨_, rfl⟩⟩

theorem streamAccPush_eq (acc : StreamAcc) (n : NodeStrings) (hlen : n.2.length < 2 ^ 63) :
    streamAccPush acc n.1 n.2 = .ok (pushNode acc n) := by
  rw [pushNode]
  cases h : acc.deferredErr with
  | some e => rw [streamAccPush_failed acc n (by rw [h]; rfl)]
  | none =>
    obtain ⟨hok, herr⟩ := streamAccPush_open acc n hlen h
    by_cases hkept : NodeKept acc.allEntries.length n
    · rw [hok hkept]
    · obtain ⟨e, he⟩ := herr hkept
      rw [he]

theorem foldl_pushNode_failed (ns : List NodeStrings) (acc : StreamAcc)
    (h : acc.deferredErr.isSome = true) : ns.foldl pushNode acc = acc := by
  induction ns with
  | nil => rfl
  | cons n ns ih =>
    have hpush : pushNode acc n = acc := by rw [pushNode, streamAccPush_failed acc n h]
    rw [List.foldl_cons, hpush, ih]

/-- All the listpacks are good and their entries together are within the cap, starting from
a number of entries that is. -/
def AllKept (kept : Nat) (ns : List NodeStrings) : Prop :=
  (∀ n ∈ ns, NodeGood n) ∧ kept + (ns.flatMap nodeEntries).length ≤ Stream.maxStreamEntries

theorem allKept_cons {kept : Nat} {n : NodeStrings} {ns : List NodeStrings}
    (h : kept ≤ Stream.maxStreamEntries) :
    AllKept kept (n :: ns) ↔ NodeKept kept n ∧ AllKept (kept + (nodeEntries n).length) ns := by
  rw [AllKept, AllKept, NodeKept, List.forall_mem_cons, List.flatMap_cons, List.length_append,
    ← Nat.add_assoc]
  constructor
  · rintro ⟨⟨hgood, hall⟩, hfit⟩
    exact ⟨⟨hgood, by omega⟩, hall, hfit⟩
  · rintro ⟨⟨hgood, -⟩, hall, hfit⟩
    exact ⟨⟨hgood, hall⟩, hfit⟩

theorem foldl_pushNode (ns : List NodeStrings) (acc : StreamAcc)
    (hlen : ∀ n ∈ ns, n.2.length < 2 ^ 63) (h : acc.deferredErr = none)
    (hcap : acc.allEntries.length ≤ Stream.maxStreamEntries) :
    (AllKept acc.allEntries.length ns →
      ns.foldl pushNode acc = ⟨acc.allEntries ++ ns.flatMap nodeEntries, none⟩) ∧
    (¬AllKept acc.allEntries.length ns →
      (ns.foldl pushNode acc).deferredErr.isSome = true) := by
  induction ns generalizing acc with
  | nil =>
    obtain ⟨all, err⟩ := acc
    cases h
    refine ⟨fun _ => by simp, fun hno => absurd ⟨by simp, by simpa using hcap⟩ hno⟩
  | cons n ns ih =>
    obtain ⟨hlenn, hlen⟩ := List.forall_mem_cons.mp hlen
    obtain ⟨hok, herr⟩ := streamAccPush_open acc n hlenn h
    have heq := streamAccPush_eq acc n hlenn
    rw [allKept_cons hcap, List.flatMap_cons, List.foldl_cons]
    by_cases hkept : NodeKept acc.allEntries.length n
    · have hroom := hkept.2
      rw [hok hkept] at heq
      rw [← Except.ok.inj heq]
      obtain ⟨hall, hsome⟩ := ih ⟨acc.allEntries ++ nodeEntries n, none⟩ hlen rfl
        (by rw [List.length_append]; omega)
      rw [List.length_append, List.append_assoc] at hall
      rw [List.length_append] at hsome
      exact ⟨fun hboth => hall hboth.2, fun hno => hsome fun hrest => hno ⟨hkept, hrest⟩⟩
    · obtain ⟨e, he⟩ := herr hkept
      rw [he] at heq
      rw [← Except.ok.inj heq, foldl_pushNode_failed ns ⟨acc.allEntries, some e⟩ rfl]
      exact ⟨fun hboth => absurd hboth.1 hkept, fun _ => rfl⟩

/-! ### Payloads -/

/-- A stream payload in its framing. What the strings of its listpacks contain is left
open. -/
structure StreamPayload where
  version : StreamVersion
  listpacks : Counted (StringForm × StringForm)
  length : LenForm
  lastIdMs : LenForm
  lastIdSeq : LenForm
  idFields : List LenForm
  groups : Counted GroupForm
  idFields_length : idFields.length = 5

namespace StreamPayload

def typeCode (p : StreamPayload) : UInt8 := p.version.typeCode

def nodeBytes (n : StringForm × StringForm) : Bytes := n.1.bytes ++ n.2.bytes

def nodeStrings (n : StringForm × StringForm) : NodeStrings := (n.1.value, n.2.value)

def bytes (p : StreamPayload) : Bytes :=
  p.listpacks.bytes nodeBytes ++ (p.length.bytes ++ (p.lastIdMs.bytes ++ (p.lastIdSeq.bytes ++
    (sinceBytes rdbTypeStreamListpacks2 p.typeCode (p.idFields.flatMap LenForm.bytes) ++
      p.groups.bytes (GroupForm.bytes p.version)))))

/-- Strings and counts are within the caps of `len_to_usize`. -/
def Framed (p : StreamPayload) : Prop :=
  p.listpacks.Fits (fun n => n.1.Fits ∧ n.2.Fits) ∧ p.groups.Fits GroupForm.Fits

def nodes (p : StreamPayload) : List NodeStrings := p.listpacks.items.map nodeStrings

def entries (p : StreamPayload) : List StreamEntry := p.nodes.flatMap nodeEntries

def acc (p : StreamPayload) : StreamAcc := p.nodes.foldl pushNode ⟨[], none⟩

end StreamPayload

theorem skipStreamIdFields_decodes {idFields : List LenForm} (h : idFields.length = 5) :
    Decodes skipStreamIdFields (idFields.flatMap LenForm.bytes) () := by
  have hitems : DecodesWhen (∀ f ∈ idFields, True)
      (ReadAction.replicate idFields.length readLengthValue) (idFields.flatMap LenForm.bytes)
      (idFields.map LenForm.value) := DecodesWhen.replicate fun f _ => f.decodesValue.when
  rw [h] at hitems
  exact (hitems.map fun _ => ()).decodes fun _ _ => trivial

theorem readStreamListpack_when (n : StringForm × StringForm) (acc : StreamAcc) :
    DecodesWhen (n.1.Fits ∧ n.2.Fits) (readStreamListpack acc) (StreamPayload.nodeBytes n)
      (pushNode acc (StreamPayload.nodeStrings n)) := by
  refine n.1.decodes.bind ⟨fun h => ?_, fun h => ?_⟩
  · have h63 : maxAllocBytes < 2 ^ 63 := by decide
    have hlen := n.2.length_value_le h
    exact (n.2.decodes.decodes h).bind_pure
      (Decodes.lift (streamAccPush_eq acc (StreamPayload.nodeStrings n) (lt_of_le_of_lt hlen h63)))
  · obtain ⟨e, he⟩ := n.2.decodes.fails h
    exact ⟨e, he.bind⟩

/-- What is read of a stream before it is checked. -/
def readStreamParts (typeCode : UInt8) : ReadM (StreamAcc × Nat × Nat × Nat) := do
  let numListpacks ← readCount "stream listpack count"
  let acc ← ReadAction.iterate numListpacks readStreamListpack ⟨[], none⟩
  let length ← readLengthValue
  let lastIdMs ← readLengthValue
  let lastIdSeq ← readLengthValue
  let _idFields ← readSince rdbTypeStreamListpacks2 typeCode skipStreamIdFields
  skipStreamConsumerGroups typeCode
  pure (acc, length, lastIdMs, lastIdSeq)

theorem readStream_eq (typeCode : UInt8) :
    readStream typeCode = (do
      let (acc, length, lastIdMs, lastIdSeq) ← readStreamParts typeCode
      lift (finishStream acc length lastIdMs lastIdSeq)) := by
  simp only [readStream, readStreamParts, bind_assoc, pure_bind]

/-- The parts of a framed payload are read whatever the listpacks contain. -/
theorem StreamPayload.decodes (p : StreamPayload) :
    DecodesWhen p.Framed (readStreamParts p.typeCode) p.bytes
      (p.acc, p.length.value, p.lastIdMs.value, p.lastIdSeq.value) := by
  have hgroups := p.groups.map "stream cgroup count" (fun g _ => g.decodes p.version) fun _ => ()
  have hcgroups : DecodesWhen (p.groups.Fits GroupForm.Fits)
      (skipStreamConsumerGroups p.version.typeCode) (p.groups.bytes (GroupForm.bytes p.version)) () :=
    hgroups
  have hids := readSince_decodes (skipStreamIdFields_decodes p.idFields_length)
    rdbTypeStreamListpacks2 p.typeCode
  have hend := hcgroups.map fun _ => (p.acc, p.length.value, p.lastIdMs.value, p.lastIdSeq.value)
  have hcount := p.listpacks.count.decodesCount "stream listpack count"
  rw [p.listpacks.count_eq] at hcount
  have hnodes : DecodesWhen (∀ n ∈ p.listpacks.items, n.1.Fits ∧ n.2.Fits)
      (ReadAction.iterate p.listpacks.items.length readStreamListpack ⟨[], none⟩)
      (p.listpacks.items.flatMap StreamPayload.nodeBytes) p.acc := by
    have hiter := DecodesWhen.iterate (g := fun acc n => pushNode acc (StreamPayload.nodeStrings n))
      (fun n (_ : n ∈ p.listpacks.items) acc => readStreamListpack_when n acc) ⟨[], none⟩
    rw [StreamPayload.acc, StreamPayload.nodes, List.foldl_map]
    exact hiter
  have hparts : DecodesWhen _ (readStreamParts p.typeCode) (p.listpacks.count.bytes ++
      (p.listpacks.items.flatMap StreamPayload.nodeBytes ++ _)) _ :=
    hcount.bind (hnodes.bind (p.length.decodesValue.bind_when (p.lastIdMs.decodesValue.bind_when
      (p.lastIdSeq.decodesValue.bind_when (hids.bind_when hend)))))
  rw [StreamPayload.bytes, Counted.bytes, List.append_assoc]
  refine hparts.congr ?_
  rw [StreamPayload.Framed, Counted.Fits]
  tauto

/-! ### The result -/

theorem nodeGood_iff (n : NodeStrings) :
    NodeGood n ↔ n.1.length = 16 ∧ ¬∃ f, nodeDecoded n = .error f := by
  rw [NodeGood, nodeEntries]
  cases nodeDecoded n with
  | ok entries => simp
  | error f => simp

namespace StreamPayload

/-- What is wrong with a payload: a master ID, a listpack, the number of the entries, or
the length field. -/
def Rejected (p : StreamPayload) : Prop :=
  (∃ n ∈ p.nodes, n.1.length ≠ 16) ∨ (∃ n ∈ p.nodes, ∃ f, nodeDecoded n = .error f) ∨
    Stream.maxStreamEntries < p.entries.length ∨ p.length.value ≠ p.entries.length

def value (p : StreamPayload) : RdbValue :=
  .stream ⟨p.entries, p.length.value, s!"{p.lastIdMs.value}-{p.lastIdSeq.value}"⟩

theorem rejected_iff (p : StreamPayload) :
    p.Rejected ↔ ¬(AllKept 0 p.nodes ∧ p.length.value = p.entries.length) := by
  rw [Rejected, AllKept, Nat.zero_add]
  change _ ↔ ¬((_ ∧ p.entries.length ≤ _) ∧ _)
  constructor
  · rintro (⟨n, hn, h16⟩ | ⟨n, hn, hf⟩ | hmany | hlen) ⟨⟨hall, hfit⟩, heq⟩
    · exact h16 (hall n hn).1
    · exact ((nodeGood_iff n).mp (hall n hn)).2 hf
    · omega
    · exact hlen heq
  · intro hno
    by_contra hnone
    obtain ⟨h16, hdec, hfit, heq⟩ : (¬∃ n ∈ p.nodes, n.1.length ≠ 16) ∧
        (¬∃ n ∈ p.nodes, ∃ f, nodeDecoded n = .error f) ∧
        ¬Stream.maxStreamEntries < p.entries.length ∧ ¬p.length.value ≠ p.entries.length := by
      simpa only [not_or] using hnone
    refine hno ⟨⟨fun n hn => (nodeGood_iff n).mpr ⟨?_, ?_⟩, by omega⟩, not_not.mp heq⟩
    · by_contra hbad
      exact h16 ⟨n, hn, hbad⟩
    · exact fun hf => hdec ⟨n, hn, hf⟩

theorem acc_eq (p : StreamPayload) (h : p.Framed) :
    (AllKept 0 p.nodes → p.acc = ⟨p.entries, none⟩) ∧
      (¬AllKept 0 p.nodes → p.acc.deferredErr.isSome = true) := by
  have h63 : maxAllocBytes < 2 ^ 63 := by decide
  have hlen : ∀ n ∈ p.nodes, n.2.length < 2 ^ 63 := by
    intro n hn
    obtain ⟨f, hf, rfl⟩ := List.mem_map.mp hn
    exact lt_of_le_of_lt (f.2.length_value_le (h.1.2 f hf).2) h63
  exact foldl_pushNode p.nodes ⟨[], none⟩ hlen rfl (Nat.zero_le _)

theorem finishStream_eq (p : StreamPayload) (h : p.Framed) :
    (¬p.Rejected → finishStream p.acc p.length.value p.lastIdMs.value p.lastIdSeq.value =
      .ok p.value) ∧
    (p.Rejected → ∃ e, finishStream p.acc p.length.value p.lastIdMs.value p.lastIdSeq.value =
      .error (.error e)) := by
  obtain ⟨hkept, hlost⟩ := p.acc_eq h
  rw [rejected_iff, not_not]
  refine ⟨fun hgood => ?_, fun hbad => ?_⟩
  · rw [hkept hgood.1]
    exact if_neg (not_not.mpr hgood.2)
  · by_cases hall : AllKept 0 p.nodes
    · rw [hkept hall]
      exact ⟨_, if_pos fun heq => hbad ⟨hall, heq⟩⟩
    · have hsome := hlost hall
      rw [finishStream]
      cases hd : p.acc.deferredErr with
      | some e => exact ⟨e, rfl⟩
      | none =>
        rw [hd] at hsome
        cases hsome

end StreamPayload

/-- A framed payload is drained to its last byte and no further, whatever comes of it: an
error exactly when something is wrong with its listpacks or its length, and else all the
entries. -/
theorem readStream_drains (p : StreamPayload) (h : p.Framed) (rest : Bytes) (crc : BitVec 64) :
    ∃ result, (readStream p.typeCode).run ⟨p.bytes ++ rest, crc⟩ =
        (result, ⟨rest, crc64 crc p.bytes⟩) ∧
      ((∃ e, result = .error (.error e)) ↔ p.Rejected) ∧
      (¬p.Rejected → result = .ok p.value) := by
  obtain ⟨hok, herr⟩ := p.finishStream_eq h
  have hdrains := (p.decodes.decodes h).bind_drains (f := fun r : StreamAcc × Nat × Nat × Nat =>
    lift (finishStream r.1 r.2.1 r.2.2.1 r.2.2.2)) (Drains.lift _)
  rw [List.append_nil] at hdrains
  refine ⟨_, by rw [readStream_eq]; exact hdrains rest crc, ⟨?_, herr⟩, hok⟩
  rintro ⟨e, he⟩
  by_contra hgood
  have hvalue := hok hgood
  rw [he] at hvalue
  cases hvalue

/-- A listpack whose master ID is the integer 5, in front of one pending entry of a group. -/
def badMasterId : StreamPayload where
  version := .three
  listpacks :=
    ⟨.one, [(.int8 5 (by decide), .raw .one [9] LenForm.one_value)], LenForm.one_value⟩
  length := .one
  lastIdMs := .one
  lastIdSeq := .zero
  idFields := List.replicate 5 .zero
  groups := ⟨.one, [⟨.int8 7 (by decide), .zero, .zero, .zero,
    ⟨.one, [⟨⟨List.replicate 16 0, rfl⟩, ⟨List.replicate 8 0, rfl⟩, .one⟩], LenForm.one_value⟩,
    ⟨.zero, [], LenForm.zero_value⟩⟩], LenForm.one_value⟩
  idFields_length := rfl

theorem readStream_drains_badMasterId :
    badMasterId.Framed ∧ ∃ result, (readStream badMasterId.typeCode).run
        ⟨badMasterId.bytes ++ [255], 0⟩ = (result, ⟨[255], crc64 0 badMasterId.bytes⟩) ∧
      ((∃ e, result = .error (.error e)) ↔ badMasterId.Rejected) ∧
      (¬badMasterId.Rejected → result = .ok badMasterId.value) := by
  have hframed : badMasterId.Framed := by
    simp [StreamPayload.Framed, badMasterId, Counted.Fits, StringForm.Fits, GroupForm.Fits,
      maxAllocBytes]
  exact ⟨hframed, readStream_drains badMasterId hframed [255] 0⟩

end ValkeyRdb
