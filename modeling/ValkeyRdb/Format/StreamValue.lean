import ValkeyRdb.Format.StreamPayload

/-!
# Stream values as they are written

A stream value is a payload whose listpacks hold the records of a stream. It is read
exactly when it is within the caps and no record is too far from its master ID.
-/

namespace ValkeyRdb

open ReadAction (Decodes DecodesWhen FailsWith lift)

/-! ### Listpacks -/

/-- A listpack of a stream behind its master ID. -/
structure StreamNodeForm where
  node : Stream.Node
  masterId : StringForm
  masterId_eq : masterId.value = beBytes 8 node.master.ms ++ beBytes 8 node.master.seq
  listpack : ListpackBlob
  elements_eq : listpack.form.value = node.elements

namespace StreamNodeForm

def bytes (n : StreamNodeForm) : Bytes := n.masterId.bytes ++ n.listpack.string.bytes

def StringsFit (n : StreamNodeForm) : Prop := n.masterId.Fits ∧ n.listpack.string.Fits

/-- No record has an ID that is far from the master ID. -/
def Near (n : StreamNodeForm) : Prop := ∀ r ∈ n.node.records, r.id.Near n.node.master

def forms (n : StreamNodeForm) : StringForm × StringForm := (n.masterId, n.listpack.string)

def strings (n : StreamNodeForm) : NodeStrings := (n.masterId.value, n.listpack.string.value)

theorem masterId_parts (n : StreamNodeForm) : n.masterId.value.length = 16 ∧
    beVal (n.masterId.value.take 8) = n.node.master.ms ∧
    beVal (n.masterId.value.drop 8) = n.node.master.seq := by
  rw [n.masterId_eq]
  refine ⟨by simp, ?_, ?_⟩
  · rw [List.take_left' (length_beBytes 8 _), beVal_beBytes_of_lt n.node.master.ms_lt]
  · rw [List.drop_left' (length_beBytes 8 _), beVal_beBytes_of_lt n.node.master.seq_lt]

theorem decoded (n : StreamNodeForm) :
    (n.Near → nodeDecoded n.strings = .ok n.node.entries) ∧
      (¬n.Near → ∃ f, nodeDecoded n.strings = .error f) := by
  obtain ⟨-, hms, hseq⟩ := n.masterId_parts
  obtain ⟨hok, herr⟩ := Stream.decodeStreamListpack_accepts n.node n.listpack.form n.elements_eq
    (2 ^ 64 - 1)
  have hmany : n.node.live.length ≤ n.listpack.form.value.length := by
    have hrec := Stream.length_le_elements n.node.master n.node.records
    have hlive := n.node.length_records
    rw [n.elements_eq, Stream.Node.elements]
    simp only [List.length_cons, List.length_append]
    omega
  have hsize := Stream.length_value_lt n.listpack.form
  have hacc : Stream.Accepts n.node.master (2 ^ 64 - 1) 0 n.node.records ↔ n.Near := by
    refine ⟨fun h => h.1, fun h => ⟨h, ?_⟩⟩
    change 0 + n.node.live.length ≤ _
    omega
  rw [hacc] at hok herr
  rw [nodeDecoded, strings, hms, hseq, n.listpack.content]
  exact ⟨hok, herr⟩

theorem nodeGood_iff_near (n : StreamNodeForm) : NodeGood n.strings ↔ n.Near := by
  obtain ⟨hok, herr⟩ := n.decoded
  rw [nodeGood_iff]
  refine ⟨fun h => ?_, fun h => ⟨n.masterId_parts.1, fun hf => ?_⟩⟩
  · by_contra hfar
    exact h.2 (herr hfar)
  · obtain ⟨f, hf⟩ := hf
    rw [hok h] at hf
    cases hf

theorem nodeEntries_near (n : StreamNodeForm) (h : n.Near) :
    nodeEntries n.strings = n.node.entries := by
  rw [nodeEntries, n.decoded.1 h]

end StreamNodeForm

theorem flatMap_nodeEntries (ns : List StreamNodeForm) (h : ∀ n ∈ ns, n.Near) :
    (ns.map StreamNodeForm.strings).flatMap nodeEntries = ns.flatMap fun n => n.node.entries := by
  rw [List.flatMap_map]
  exact List.flatMap_congr fun n hn => n.nodeEntries_near (h n hn)

theorem allKept_iff_near (ns : List StreamNodeForm) :
    AllKept 0 (ns.map StreamNodeForm.strings) ↔ (∀ n ∈ ns, n.Near) ∧
      (ns.flatMap fun n => n.node.entries).length ≤ Stream.maxStreamEntries := by
  have hgood : (∀ n ∈ ns.map StreamNodeForm.strings, NodeGood n) ↔ ∀ n ∈ ns, n.Near := by
    rw [List.forall_mem_map]
    exact forall₂_congr fun n _ => n.nodeGood_iff_near
  rw [AllKept, hgood, Nat.zero_add]
  refine and_congr_right fun hnear => ?_
  rw [flatMap_nodeEntries ns hnear]

/-! ### Streams -/

structure StreamForm where
  version : StreamVersion
  nodes : Counted StreamNodeForm
  length : LenForm
  lastIdMs : LenForm
  lastIdSeq : LenForm
  idFields : List LenForm
  groups : Counted GroupForm
  length_eq : length.value = (nodes.items.flatMap fun n => n.node.entries).length
  idFields_length : idFields.length = 5

namespace StreamForm

def typeCode (f : StreamForm) : UInt8 := f.version.typeCode

def entries (f : StreamForm) : List StreamEntry := f.nodes.items.flatMap fun n => n.node.entries

def value (f : StreamForm) : StreamData :=
  ⟨f.entries, f.length.value, s!"{f.lastIdMs.value}-{f.lastIdSeq.value}"⟩

def bytes (f : StreamForm) : Bytes :=
  f.nodes.bytes StreamNodeForm.bytes ++ (f.length.bytes ++ (f.lastIdMs.bytes ++
    (f.lastIdSeq.bytes ++
      (sinceBytes rdbTypeStreamListpacks2 f.typeCode (f.idFields.flatMap LenForm.bytes) ++
        f.groups.bytes (GroupForm.bytes f.version)))))

/-- No record has an ID that is far from the master ID of its listpack. -/
def Near (f : StreamForm) : Prop := ∀ n ∈ f.nodes.items, n.Near

def WithinCaps (f : StreamForm) : Prop :=
  f.nodes.Fits StreamNodeForm.StringsFit ∧ f.entries.length ≤ Stream.maxStreamEntries ∧
    f.groups.Fits GroupForm.Fits

end StreamForm

/-- The framing of a stream, what its listpacks contain left aside. -/
def StreamForm.payload (f : StreamForm) : StreamPayload where
  version := f.version
  listpacks := ⟨f.nodes.count, f.nodes.items.map StreamNodeForm.forms,
    by rw [List.length_map, f.nodes.count_eq]⟩
  length := f.length
  lastIdMs := f.lastIdMs
  lastIdSeq := f.lastIdSeq
  idFields := f.idFields
  groups := f.groups
  idFields_length := f.idFields_length

namespace StreamForm

theorem payload_bytes (f : StreamForm) : f.payload.bytes = f.bytes := by
  simp only [StreamPayload.bytes, StreamForm.bytes, payload, Counted.bytes, List.flatMap_map]
  rfl

theorem payload_nodes (f : StreamForm) :
    f.payload.nodes = f.nodes.items.map StreamNodeForm.strings := by
  simp only [StreamPayload.nodes, payload, List.map_map]
  rfl

theorem payload_framed (f : StreamForm) :
    f.payload.Framed ↔ f.nodes.Fits StreamNodeForm.StringsFit ∧ f.groups.Fits GroupForm.Fits := by
  rw [StreamPayload.Framed, Counted.Fits, Counted.Fits]
  simp only [payload, List.length_map, List.forall_mem_map]
  rfl

theorem payload_rejected (f : StreamForm) :
    f.payload.Rejected ↔ ¬(f.Near ∧ f.entries.length ≤ Stream.maxStreamEntries) := by
  rw [StreamPayload.rejected_iff, payload_nodes, allKept_iff_near, StreamPayload.entries,
    payload_nodes]
  refine not_congr ⟨fun h => h.1, fun h => ⟨h, ?_⟩⟩
  rw [flatMap_nodeEntries _ h.1]
  exact f.length_eq

theorem payload_value (f : StreamForm) (h : f.Near) : f.payload.value = .stream f.value := by
  rw [StreamPayload.value, StreamPayload.entries, payload_nodes, flatMap_nodeEntries _ h]
  rfl

/-- Exactly the streams within the caps whose IDs are near their master IDs are read. -/
theorem decodes (f : StreamForm) :
    DecodesWhen (f.WithinCaps ∧ f.Near) (readStream f.typeCode) f.bytes (.stream f.value) := by
  have hparts := f.payload.decodes
  rw [payload_bytes, payload_framed] at hparts
  have hwithin : f.WithinCaps ∧ f.Near ↔ (f.nodes.Fits StreamNodeForm.StringsFit ∧
      f.groups.Fits GroupForm.Fits) ∧ (f.Near ∧ f.entries.length ≤ Stream.maxStreamEntries) := by
    rw [WithinCaps]
    tauto
  rw [readStream_eq]
  refine DecodesWhen.congr ⟨fun h => ?_, fun h => ?_⟩ hwithin
  · obtain ⟨hok, -⟩ := f.payload.finishStream_eq (f.payload_framed.mpr h.1)
    have hvalue := hok (by rw [payload_rejected, not_not]; exact h.2)
    rw [f.payload_value h.2.1] at hvalue
    exact (hparts.decodes h.1).bind_pure (Decodes.lift hvalue)
  · by_cases hfit : f.nodes.Fits StreamNodeForm.StringsFit ∧ f.groups.Fits GroupForm.Fits
    · obtain ⟨-, herr⟩ := f.payload.finishStream_eq (f.payload_framed.mpr hfit)
      obtain ⟨e, he⟩ := herr (f.payload_rejected.mpr fun hnear => h ⟨hfit, hnear⟩)
      have hfails := (hparts.decodes hfit).bind_fails (f := fun r : StreamAcc × Nat × Nat × Nat =>
        lift (finishStream r.1 r.2.1 r.2.2.1 r.2.2.2)) (FailsWith.lift he)
      rw [List.append_nil] at hfails
      exact ⟨_, hfails⟩
    · obtain ⟨e, he⟩ := hparts.fails hfit
      exact ⟨e, he.bind⟩

end StreamForm

end ValkeyRdb
