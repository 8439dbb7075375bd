import ValkeyRdb.Reader.Laws

/-!
# The running checksum and the trailer

In every reachable state the CRC of the reader is the CRC-64 of the bytes taken from the
input, the trailer left out, and `crcChecked` is set only by a successful comparison.
-/

namespace ValkeyRdb

open StateAction (Rounds bind_eq_ok bind_eq_error run_bind_ok run_bind_error)

/-! ### The two stages of a reader -/

/-- The bytes taken from the input are `b`, all of them digested; a byte to be replayed
is the last of them. -/
structure Digested (input : Bytes) (r : RdbReader) (b : Bytes) : Prop where
  split : input = b ++ r.reader.inner
  crc : r.reader.crc = crc64 0 b
  replay : ∀ p, r.preambleByte = some p → r.chunked = none ∧ b.getLast? = some p

/-- The bytes taken are `b`, which the EOF opcode ends, and the part `t` of the trailer. -/
structure Ended (input : Bytes) (r : RdbReader) (b t : Bytes) : Prop where
  finished : r.finished = true
  split : input = b ++ (t ++ r.reader.inner)
  crc : r.reader.crc = crc64 0 b
  eof : b.getLast? = some rdbOpcodeEof
  trailer : t.length ≤ 8
  checked : r.crcChecked = true → 5 ≤ r.header.version ∧ t.length = 8 ∧ leVal t ≠ 0 ∧
    BitVec.ofNat 64 (leVal t) = crc64 0 b

/-- The invariant of the running checksum. -/
def ChecksumInv (input : Bytes) (r : RdbReader) : Prop :=
  (∃ b, Digested input r b ∧ r.crcChecked = false) ∨ ∃ b t, Ended input r b t

theorem Digested.advances {input b : Bytes} {r r' : RdbReader} (h : Digested input r b)
    (ha : Advances r r') (hp : r'.preambleByte = none) : ∃ b', Digested input r' b' := by
  obtain ⟨c, hc, hcrc⟩ := ha.bytes
  refine ⟨b ++ c, ?_, ?_, ?_⟩
  · rw [h.split, hc, List.append_assoc]
  · rw [hcrc, h.crc, crc64_append]
  · intro p hpp
    rw [hp] at hpp
    cases hpp

theorem Digested.opcode {input b : Bytes} {r r' : RdbReader} {c : UInt8}
    (h : Digested input r b) (ho : readOpcode r = (.ok c, r')) :
    ∃ b', Digested input r' b' ∧ b'.getLast? = some c := by
  obtain ⟨hp, rfl⟩ | ⟨hp, rest, hi, rfl⟩ := readOpcode_ok ho
  · exact ⟨b, ⟨h.split, h.crc, fun p hpp => by cases hpp⟩, (h.replay c hp).2⟩
  · refine ⟨b ++ [c], ⟨?_, ?_, ?_⟩, List.getLast?_concat⟩
    · rw [h.split, hi, List.append_assoc]
      rfl
    · change crcByte r.reader.crc c = _
      rw [h.crc, crc64_append]
      rfl
    · intro p hpp
      change r.preambleByte = some p at hpp
      rw [hp] at hpp
      cases hpp

theorem Digested.rounds {input b : Bytes} {r r' : RdbReader} (h : Digested input r b)
    (hr : Rounds opcodeStep r r') : ∃ b', Digested input r' b' := by
  induction hr generalizing b with
  | refl => exact ⟨b, h⟩
  | head hs _ ih =>
    obtain ⟨c, r₁, -, ho, -, hm⟩ := opcodeStep_continue hs
    have hp := hm.preambleByte.trans (readOpcode_preambleByte ho)
    obtain ⟨b', hb'⟩ := h.advances (opcodeStep_advances hs) hp
    exact ih hb'

/-! ### The trailer -/

/-- The call of `next` on `r` gets to the EOF opcode, and `r'` is the reader behind it. -/
def ReachesEof (r r' : RdbReader) : Prop :=
  r.finished = false ∧ r.chunked = none ∧
    ∃ r₁, Rounds opcodeStep r r₁ ∧ readOpcode r₁ = (.ok rdbOpcodeEof, r')

/-- The reader with `rest` unread and the digest as it was. -/
def RdbReader.skipTo (r : RdbReader) (rest : Bytes) : RdbReader :=
  { r with reader := ⟨rest, r.reader.crc⟩ }

theorem readTrailer_short {r : RdbReader} (h : r.reader.inner.length < 8) :
    readTrailer r = (.error eofFault, r.skipTo []) := by
  have hd : r.reader.inner.drop 8 = [] := List.drop_eq_nil_of_le (by omega)
  rw [readTrailer, if_neg (by omega), hd]
  rfl

theorem readTrailer_full {r : RdbReader} {t rest : Bytes} (h : r.reader.inner = t ++ rest)
    (ht : t.length = 8) : readTrailer r = (.ok t, r.skipTo rest) := by
  rw [readTrailer, if_pos (by rw [h, List.length_append]; omega), h, ← ht,
    List.take_left, List.drop_left]
  rfl

section Trailer

variable {r : RdbReader} {t rest : Bytes} {computed stored : BitVec 64}

theorem checkCrc_absent (h : ¬(r.header.version ≥ 5 ∧ stored ≠ 0)) :
    checkCrc computed stored r = (.ok (), r) := by
  rw [checkCrc, StateAction.run_get_bind, if_neg h]
  rfl

theorem checkCrc_match (h : r.header.version ≥ 5 ∧ stored ≠ 0) (he : computed = stored) :
    checkCrc computed stored r = (.ok (), { r with crcChecked := true }) := by
  rw [checkCrc, StateAction.run_get_bind, if_pos h, if_neg (not_not.mpr he)]
  rfl

theorem checkCrc_mismatch (h : r.header.version ≥ 5 ∧ stored ≠ 0) (he : computed ≠ stored) :
    ∃ msg, checkCrc computed stored r = (.error (.error (.corruptData msg)), r) := by
  rw [checkCrc, StateAction.run_get_bind, if_pos h, if_pos he]
  exact ⟨_, rfl⟩

theorem readEof_short (h : r.reader.inner.length < 8) :
    readEof r = (.error eofFault, r.skipTo []) := by
  rw [readEof, StateAction.run_get_bind]
  exact run_bind_error (readTrailer_short h)

theorem readEof_full (h : r.reader.inner = t ++ rest) (ht : t.length = 8) :
    readEof r = (do
      checkCrc r.reader.crc (BitVec.ofNat 64 (leVal t))
      StateAction.modify fun r => { r with finished := true } : ReaderM Unit) (r.skipTo rest) := by
  rw [readEof, StateAction.run_get_bind]
  exact run_bind_ok (readTrailer_full h ht)

theorem readEof_unchecked (h : r.reader.inner = t ++ rest) (ht : t.length = 8)
    (hc : ¬(r.header.version ≥ 5 ∧ BitVec.ofNat 64 (leVal t) ≠ 0)) :
    readEof r = (.ok (), { r.skipTo rest with finished := true }) := by
  rw [readEof_full h ht]
  exact run_bind_ok (checkCrc_absent (r := r.skipTo rest) hc)

theorem readEof_match (h : r.reader.inner = t ++ rest) (ht : t.length = 8)
    (hc : r.header.version ≥ 5 ∧ BitVec.ofNat 64 (leVal t) ≠ 0)
    (he : r.reader.crc = BitVec.ofNat 64 (leVal t)) :
    readEof r = (.ok (), { r.skipTo rest with crcChecked := true, finished := true }) := by
  rw [readEof_full h ht]
  exact run_bind_ok (checkCrc_match (r := r.skipTo rest) hc he)

theorem readEof_mismatch (h : r.reader.inner = t ++ rest) (ht : t.length = 8)
    (hc : r.header.version ≥ 5 ∧ BitVec.ofNat 64 (leVal t) ≠ 0)
    (he : r.reader.crc ≠ BitVec.ofNat 64 (leVal t)) :
    ∃ msg, readEof r = (.error (.error (.corruptData msg)), r.skipTo rest) := by
  obtain ⟨msg, hm⟩ := checkCrc_mismatch (r := r.skipTo rest) hc he
  refine ⟨msg, ?_⟩
  rw [readEof_full h ht]
  exact run_bind_error hm

end Trailer

theorem ofNat_leVal_eq_zero {t : Bytes} (ht : t.length = 8) :
    BitVec.ofNat 64 (leVal t) = 0 ↔ leVal t = 0 := by
  have hlt := leVal_lt t
  rw [ht] at hlt
  rw [← BitVec.toNat_inj, BitVec.toNat_ofNat, Nat.mod_eq_of_lt (by omega)]
  rfl

/-! ### The invariant over a run -/

theorem ReachesEof.digested {input b : Bytes} {r r' : RdbReader} (h : Digested input r b)
    (he : ReachesEof r r') : ∃ b', Digested input r' b' ∧ b'.getLast? = some rdbOpcodeEof := by
  obtain ⟨-, -, r₁, hr, ho⟩ := he
  obtain ⟨b₁, hb₁⟩ := h.rounds hr
  exact hb₁.opcode ho

theorem ReachesEof.advances {r r' : RdbReader} (he : ReachesEof r r') : Advances r r' := by
  obtain ⟨-, -, r₁, hr, ho⟩ := he
  exact (rounds_advances hr).trans (readOpcode_advances ho)

theorem ReachesEof.nextInner_ok {r r' r'' : RdbReader} (he : ReachesEof r r')
    (h : readEof r' = (.ok (), r'')) : nextInner r = (.ok none, r'') := by
  obtain ⟨-, hc, r₁, hr, ho⟩ := he
  rw [nextInner_unchunked hc]
  have hstep : opcodeStep r₁ = (.ok (some none), r'') :=
    (run_bind_ok ho).trans (run_bind_ok h)
  exact (hr.loop_eq opcodeStep_descends).trans (StateAction.loop_done hstep)

theorem ReachesEof.nextInner_error {r r' r'' : RdbReader} {f : Fault} (he : ReachesEof r r')
    (h : readEof r' = (.error f, r'')) : nextInner r = (.error f, r'') := by
  obtain ⟨-, hc, r₁, hr, ho⟩ := he
  rw [nextInner_unchunked hc]
  have hstep : opcodeStep r₁ = (.error f, r'') :=
    (run_bind_ok ho).trans (run_bind_error h)
  exact (hr.loop_eq opcodeStep_descends).trans (StateAction.loop_error hstep)

/-- A call that does not get to the EOF opcode only reads, and it returns no `Ok(None)`. -/
theorem Digested.call {input b : Bytes} {r : RdbReader} (h : Digested input r b)
    (hf : r.finished = false) : (∃ r', ReachesEof r r') ∨
      ((∀ r', nextInner r ≠ (.ok none, r')) ∧ Advances r (nextInner r).2 ∧
        ∃ b', Digested input (nextInner r).2 b') := by
  cases hc : r.chunked with
  | some state =>
    refine .inr ?_
    have hrun := nextInner_chunked hc
    have hm : Moves r (nextInner r).2 := by
      rw [hrun]
      exact bind_moves readChunk_moves (fun _ => pure_moves _) r
    have hp : r.preambleByte = none := by
      cases hp : r.preambleByte with
      | none => rfl
      | some p =>
        have hn := (h.replay p hp).1
        rw [hc] at hn
        cases hn
    refine ⟨fun r' hn => ?_, hm.toAdvances, h.advances hm.toAdvances (hm.preambleByte.trans hp)⟩
    rw [hrun] at hn
    obtain ⟨e, r₁, -, hp⟩ := bind_eq_ok hn
    cases hp
  | none =>
    have hrun := nextInner_unchunked hc
    obtain ⟨r₁, hr, hloop⟩ := opcodeLoop_cases r
    obtain ⟨b₁, hb₁⟩ := h.rounds hr
    rcases hloop with ⟨ho, hl⟩ | ⟨c, r₂, ho, hloop⟩
    · refine .inr ?_
      rw [hrun, hl]
      exact ⟨fun r' hn => by (cases hn), rounds_advances hr, b₁, hb₁⟩
    · by_cases hc' : c = rdbOpcodeEof
      · subst hc'
        exact .inl ⟨r₂, hf, hc, r₁, hr, ho⟩
      · refine .inr ?_
        have hm := opcodeArm_moves hc' r₂
        obtain ⟨b₂, hb₂, -⟩ := hb₁.opcode ho
        have ha := (rounds_advances hr).trans (readOpcode_advances ho)
        have hp := readOpcode_preambleByte ho
        rw [hrun]
        rcases hloop with ⟨x, r', harm, hl⟩ | ⟨f, r', harm, hl⟩
        · rw [harm] at hm
          rw [hl]
          refine ⟨fun r'' hn => ?_, ha.trans hm.toAdvances,
            hb₂.advances hm.toAdvances (hm.preambleByte.trans hp)⟩
          cases hn
          exact opcodeArm_ne_end hc' harm
        · rw [harm] at hm
          rw [hl]
          exact ⟨fun r'' hn => by (cases hn), ha.trans hm.toAdvances,
            hb₂.advances hm.toAdvances (hm.preambleByte.trans hp)⟩

theorem Digested.next_cases {input b : Bytes} {r : RdbReader} (h : Digested input r b)
    (hf : r.finished = false) : (∃ r', ReachesEof r r') ∨
      ∃ x r', Advances r r' ∧ (∃ b', Digested input r' b') ∧
        ((¬Terminal x ∧ r.next = (some x, r')) ∨
          (Terminal x ∧ r.next = (some x, { r' with finished := true }))) := by
  rcases h.call hf with he | ⟨hnone, ha, hd⟩
  · exact .inl he
  · refine .inr ?_
    rcases hi : nextInner r with ⟨f | _ | e, r'⟩
    · rw [hi] at ha hd
      exact ⟨_, r', ha, hd, next_error hf hi⟩
    · exact absurd hi (hnone r')
    · rw [hi] at ha hd
      exact ⟨.ok e, r', ha, hd, .inl ⟨fun h => h, next_entry hf hi⟩⟩

theorem Digested.start {input : Bytes} {header : RdbHeader} {reader : CrcReader}
    (h : readHeader.run ⟨input, 0⟩ = (.ok header, reader)) :
    ∃ b, Digested input (RdbReader.afterHeader reader header) b := by
  obtain ⟨b, hb, hc⟩ := readHeader.tracks ⟨input, 0⟩
  rw [h] at hb hc
  exact ⟨b, hb, hc, fun p hp => by cases hp⟩

theorem Digested.preamble {input b : Bytes} {r r' : RdbReader} (h : Digested input r b)
    (hp : r.preambleByte = none) (hc : r.chunked = none) (hr : readPreamble r = (.ok (), r')) :
    (∃ b', Digested input r' b') ∧ r'.crcChecked = r.crcChecked := by
  obtain ⟨r₁, -, hm, hs, hend⟩ := readPreamble_cases r
  obtain ⟨b₁, hb₁⟩ := h.advances hm.toAdvances (hm.preambleByte.trans hp)
  rcases hend with ⟨c, rest, hi, -, he⟩ | ⟨f, r'', -, he⟩
  · rw [he] at hr
    cases hr
    refine ⟨⟨b₁ ++ [c], ⟨?_, ?_, fun p hpp => ?_⟩⟩, hm.crcChecked⟩
    · rw [hb₁.split, hi, List.append_assoc]
      rfl
    · change crcByte r₁.reader.crc c = _
      rw [hb₁.crc, crc64_append]
      rfl
    · cases hpp
      refine ⟨?_, List.getLast?_concat⟩
      change r₁.chunked = none
      rw [hs]
      exact hc
  · rw [he] at hr
    cases hr

theorem ChecksumInv.new {input : Bytes} {r : RdbReader} (h : RdbReader.new input = .ok r) :
    ChecksumInv input r := by
  rw [RdbReader.new] at h
  rcases hh : readHeader.run ⟨input, 0⟩ with ⟨x, reader⟩
  rw [hh] at h
  cases x with
  | error e => cases h
  | ok header =>
    obtain ⟨b, hb⟩ := Digested.start hh
    rcases hp : readPreamble (RdbReader.afterHeader reader header) with ⟨x, r'⟩
    dsimp only at h
    rw [hp] at h
    cases x with
    | error e => cases h
    | ok u =>
      cases h
      obtain ⟨hd, hchecked⟩ := hb.preamble rfl rfl hp
      obtain ⟨b', hb'⟩ := hd
      exact .inl ⟨b', hb', hchecked⟩

/-- What a call that gets to the EOF opcode yields, and the reader it leaves. -/
theorem ReachesEof.next {r r' : RdbReader} (he : ReachesEof r r') :
    (r'.reader.inner.length < 8 ∧
        r.next = (some (.error eofFault), { r'.skipTo [] with finished := true })) ∨
      ∃ t rest, r'.reader.inner = t ++ rest ∧ t.length = 8 ∧
        ((¬(r.header.version ≥ 5 ∧ leVal t ≠ 0) ∧
            r.next = (none, { r'.skipTo rest with finished := true })) ∨
          (r.header.version ≥ 5 ∧ leVal t ≠ 0 ∧ r'.reader.crc = BitVec.ofNat 64 (leVal t) ∧
            r.next = (none, { r'.skipTo rest with crcChecked := true, finished := true })) ∨
          (r.header.version ≥ 5 ∧ leVal t ≠ 0 ∧ r'.reader.crc ≠ BitVec.ofNat 64 (leVal t) ∧
            ∃ msg, r.next = (some (.error (.error (.corruptData msg))),
              { r'.skipTo rest with finished := true }))) := by
  have hheader := he.advances.header
  by_cases hlen : r'.reader.inner.length < 8
  · refine .inl ⟨hlen, ?_⟩
    rw [next_eq he.1, he.nextInner_error (readEof_short hlen)]
  · refine .inr ⟨r'.reader.inner.take 8, r'.reader.inner.drop 8,
      (List.take_append_drop 8 _).symm, List.length_take_of_le (by omega), ?_⟩
    generalize ht : r'.reader.inner.take 8 = t
    generalize hd : r'.reader.inner.drop 8 = rest
    have hsplit : r'.reader.inner = t ++ rest := by
      rw [← ht, ← hd, List.take_append_drop]
    have hlen' : t.length = 8 := by
      rw [← ht]
      exact List.length_take_of_le (by omega)
    rw [← hheader]
    by_cases hc : r'.header.version ≥ 5 ∧ leVal t ≠ 0
    · have hc' : r'.header.version ≥ 5 ∧ BitVec.ofNat 64 (leVal t) ≠ 0 :=
        ⟨hc.1, fun h => hc.2 ((ofNat_leVal_eq_zero hlen').mp h)⟩
      by_cases hcrc : r'.reader.crc = BitVec.ofNat 64 (leVal t)
      · refine .inr (.inl ⟨hc.1, hc.2, hcrc, ?_⟩)
        exact next_none he.1 (he.nextInner_ok (readEof_match hsplit hlen' hc' hcrc))
      · refine .inr (.inr ⟨hc.1, hc.2, hcrc, ?_⟩)
        obtain ⟨msg, hm⟩ := readEof_mismatch hsplit hlen' hc' hcrc
        refine ⟨msg, ?_⟩
        rw [next_eq he.1, he.nextInner_error hm]
    · refine .inl ⟨hc, ?_⟩
      refine next_none he.1 (he.nextInner_ok (readEof_unchecked hsplit hlen' fun h => hc ?_))
      exact ⟨h.1, fun h0 => h.2 ((ofNat_leVal_eq_zero hlen').mpr h0)⟩

theorem Ended.of_skipTo {input b t rest : Bytes} {r : RdbReader} (h : Digested input r b)
    (hb : b.getLast? = some rdbOpcodeEof) (hi : r.reader.inner = t ++ rest) (ht : t.length ≤ 8)
    (hc : r.crcChecked = false) : Ended input { r.skipTo rest with finished := true } b t where
  finished := rfl
  split := by rw [h.split, hi]; rfl
  crc := h.crc
  eof := hb
  trailer := ht
  checked h := by
    change r.crcChecked = true at h
    rw [hc] at h
    cases h

theorem ChecksumInv.next {input : Bytes} {r : RdbReader} (h : ChecksumInv input r) :
    ChecksumInv input r.next.2 := by
  cases hf : r.finished with
  | true =>
    rw [next_finished hf]
    exact h
  | false =>
    rcases h with ⟨b, hb, hc⟩ | ⟨b, t, hend⟩
    · rcases hb.next_cases hf with ⟨r', he⟩ | ⟨x, r', ha, ⟨b', hb'⟩, hn⟩
      · obtain ⟨b', hb', hlast⟩ := he.digested hb
        have hc' : r'.crcChecked = false := he.advances.crcChecked.trans hc
        rcases he.next with ⟨hlen, hn⟩ | ⟨t, rest, hi, ht, ⟨-, hn⟩ | ⟨hv, h0, hcrc, hn⟩ |
          ⟨-, -, -, msg, hn⟩⟩
        · rw [hn]
          exact .inr ⟨b', r'.reader.inner, Ended.of_skipTo hb' hlast (List.append_nil _).symm
            (by omega) hc'⟩
        · rw [hn]
          exact .inr ⟨b', t, Ended.of_skipTo hb' hlast hi (by omega) hc'⟩
        · rw [hn]
          refine .inr ⟨b', t, rfl, ?_, hb'.crc, hlast, by omega, fun _ => ?_⟩
          · rw [hb'.split, hi]
            rfl
          · refine ⟨?_, ht, h0, ?_⟩
            · change 5 ≤ r'.header.version
              rw [he.advances.header]
              exact hv
            · rw [← hcrc, hb'.crc]
        · rw [hn]
          exact .inr ⟨b', t, Ended.of_skipTo hb' hlast hi (by omega) hc'⟩
      · have hcc : r'.crcChecked = false := ha.crcChecked.trans hc
        rcases hn with ⟨-, hn⟩ | ⟨-, hn⟩
        · rw [hn]
          exact .inl ⟨b', hb', hcc⟩
        · rw [hn]
          exact .inl ⟨b', ⟨hb'.split, hb'.crc, hb'.replay⟩, hcc⟩
    · rw [hend.finished] at hf
      cases hf

theorem Reachable.checksumInv {input : Bytes} {r : RdbReader} (h : Reachable input r) :
    ChecksumInv input r := by
  induction h with
  | new h => exact ChecksumInv.new h
  | withMaxKeyElements _ max ih =>
    rcases ih with ⟨b, hb, hc⟩ | ⟨b, t, he⟩
    · exact .inl ⟨b, ⟨hb.split, hb.crc, hb.replay⟩, hc⟩
    · exact .inr ⟨b, t, he.finished, he.split, he.crc, he.eof, he.trailer, he.checked⟩
  | withoutChunking _ ih =>
    rcases ih with ⟨b, hb, hc⟩ | ⟨b, t, he⟩
    · exact .inl ⟨b, ⟨hb.split, hb.crc, hb.replay⟩, hc⟩
    · exact .inr ⟨b, t, he.finished, he.split, he.crc, he.eof, he.trailer, he.checked⟩
  | next _ ih => exact ih.next

/-! ### Whole runs -/

theorem Reachable.digested {input : Bytes} {r : RdbReader} (h : Reachable input r)
    (hf : r.finished = false) : (∃ b, Digested input r b) ∧ r.crcChecked = false := by
  rcases h.checksumInv with ⟨b, hb, hc⟩ | ⟨b, t, he⟩
  · exact ⟨⟨b, hb⟩, hc⟩
  · rw [he.finished] at hf
    cases hf

theorem Reachable.next_open {input : Bytes} {r r' : RdbReader} {x : Res RdbEntry}
    (h : Reachable input r) (hf : r.finished = false) (hn : r.next = (some x, r'))
    (hx : ¬Terminal x) : Advances r r' := by
  obtain ⟨⟨b, hb⟩, -⟩ := h.digested hf
  rcases hb.next_cases hf with ⟨re, he⟩ | ⟨y, r₁, ha, -, ⟨-, he⟩ | ⟨ht, he⟩⟩
  · rcases he.next with ⟨-, he'⟩ | ⟨t, rest, -, -, ⟨-, he'⟩ | ⟨-, -, -, he'⟩ |
      ⟨-, -, -, msg, he'⟩⟩
    · rw [he'] at hn
      cases hn
      exact absurd trivial hx
    · rw [he'] at hn
      cases hn
    · rw [he'] at hn
      cases hn
    · rw [he'] at hn
      cases hn
      exact absurd trivial hx
  · rw [he] at hn
    cases hn
    exact ha
  · rw [he] at hn
    cases hn
    exact absurd ht hx

theorem Reachable.steps_open {input : Bytes} {r r' : RdbReader} {items : List (Res RdbEntry)}
    (h : Reachable input r) (hf : r.finished = false) (hs : Steps RdbReader.next r items r')
    (hx : ∀ x ∈ items, ¬Terminal x) : r'.finished = false := by
  induction hs with
  | nil => exact hf
  | cons hn _ ih =>
    have hopen := (h.next_open hf hn (hx _ List.mem_cons_self)).finished.trans hf
    have hr := h.next
    rw [hn] at hr
    exact ih hr hopen fun x hx' => hx x (List.mem_cons_of_mem _ hx')

/-- `None` from an open reader means that the EOF opcode and its trailer were read. -/
theorem Reachable.next_none {input : Bytes} {r r' : RdbReader} (h : Reachable input r)
    (hf : r.finished = false) (hn : r.next = (none, r')) :
    ∃ re, ReachesEof r re ∧ 8 ≤ re.reader.inner.length := by
  obtain ⟨⟨b, hb⟩, -⟩ := h.digested hf
  rcases hb.next_cases hf with ⟨re, he⟩ | ⟨y, r₁, -, -, ⟨-, he⟩ | ⟨-, he⟩⟩
  · refine ⟨re, he, ?_⟩
    rcases he.next with ⟨hlen, he'⟩ | ⟨t, rest, hi, ht, -⟩
    · rw [he'] at hn
      cases hn
    · rw [hi, List.length_append]
      omega
  · rw [he] at hn
    cases hn
  · rw [he] at hn
    cases hn

theorem ReachesEof.next_header {r r' : RdbReader} (he : ReachesEof r r') :
    r.next.2.header = r.header := by
  rcases he.next with ⟨-, hn⟩ | ⟨t, rest, -, -, ⟨-, hn⟩ | ⟨-, -, -, hn⟩ | ⟨-, -, -, msg, hn⟩⟩
  · rw [hn]
    exact he.advances.header
  · rw [hn]
    exact he.advances.header
  · rw [hn]
    exact he.advances.header
  · rw [hn]
    exact he.advances.header

theorem Reachable.next_header {input : Bytes} {r : RdbReader} (h : Reachable input r) :
    r.next.2.header = r.header := by
  cases hf : r.finished with
  | true => rw [next_finished hf]
  | false =>
    obtain ⟨⟨b, hb⟩, -⟩ := h.digested hf
    rcases hb.next_cases hf with ⟨re, he⟩ | ⟨y, r₁, ha, -, ⟨-, he⟩ | ⟨-, he⟩⟩
    · exact he.next_header
    · rw [he]
      exact ha.header
    · rw [he]
      exact ha.header

theorem Reachable.steps_header {input : Bytes} {r r' : RdbReader} {items : List (Res RdbEntry)}
    (h : Reachable input r) (hs : Steps RdbReader.next r items r') : r'.header = r.header := by
  induction hs with
  | nil => rfl
  | cons hn _ ih =>
    have hheader := h.next_header
    have hr := h.next
    rw [hn] at hr hheader
    exact (ih hr).trans hheader

/-- What a clean end of the iteration says about the file: `b`, closed by the EOF opcode,
is all that was digested, `t` is the trailer, and a stored checksum was compared. -/
def CleanEnd (input : Bytes) (r : RdbReader) : Prop :=
  ∃ b t, input = b ++ (t ++ r.reader.inner) ∧ t.length = 8 ∧ b.getLast? = some rdbOpcodeEof ∧
    r.reader.crc = crc64 0 b ∧
    (5 ≤ r.header.version ∧ leVal t ≠ 0 →
      BitVec.ofNat 64 (leVal t) = crc64 0 b ∧ r.crcChecked = true) ∧
    (¬(5 ≤ r.header.version ∧ leVal t ≠ 0) → r.crcChecked = false)

theorem Reachable.cleanEnd {input : Bytes} {r r' : RdbReader} (h : Reachable input r)
    (hf : r.finished = false) (hn : r.next = (none, r')) : CleanEnd input r' := by
  obtain ⟨⟨b, hb⟩, hc⟩ := h.digested hf
  obtain ⟨re, he, -⟩ := h.next_none hf hn
  obtain ⟨b', hb', hlast⟩ := he.digested hb
  have hheader := he.advances.header
  rcases he.next with ⟨-, he'⟩ | ⟨t, rest, hi, ht, ⟨hv, he'⟩ | ⟨hv, h0, hcrc, he'⟩ |
    ⟨-, -, -, msg, he'⟩⟩
  · rw [he'] at hn
    cases hn
  · rw [he'] at hn
    cases hn
    refine ⟨b', t, by rw [hb'.split, hi]; rfl, ht, hlast, hb'.crc, fun hv' => ?_, fun _ => ?_⟩
    · change 5 ≤ re.header.version ∧ leVal t ≠ 0 at hv'
      rw [hheader] at hv'
      exact absurd hv' hv
    · exact he.advances.crcChecked.trans hc
  · rw [he'] at hn
    cases hn
    refine ⟨b', t, by rw [hb'.split, hi]; rfl, ht, hlast, hb'.crc, fun _ => ⟨?_, rfl⟩, fun hv' => ?_⟩
    · rw [← hcrc, hb'.crc]
    · change ¬(5 ≤ re.header.version ∧ leVal t ≠ 0) at hv'
      rw [hheader] at hv'
      exact absurd ⟨hv, h0⟩ hv'
  · rw [he'] at hn
    cases hn

/-- The checksum of a reader is that of the bytes it took, header included and trailer
excluded; a file that ends cleanly passed the comparison if it stores a checksum; one whose
stored checksum differs ends in a `CorruptData` error; and `crcChecked` says that the
comparison was made and succeeded. -/
theorem checksum_integrity (input : Bytes) (r : RdbReader) (h : Reachable input r) :
    (∃ b t, input = b ++ (t ++ r.reader.inner) ∧ r.reader.crc = crc64 0 b ∧
      (t ≠ [] → r.finished = true ∧ b.getLast? = some rdbOpcodeEof ∧ t.length ≤ 8)) ∧
    (∀ items r', Yields RdbReader.next r items r' → r.finished = false →
      (∀ x ∈ items, ¬Terminal x) → CleanEnd input r') ∧
    (∀ items r', Yields RdbReader.next r items r' →
      ∀ pre m eof b t, Steps RdbReader.next r pre m → ReachesEof m eof →
        input = b ++ eof.reader.inner → eof.reader.inner.take 8 = t → t.length = 8 →
        5 ≤ r.header.version → leVal t ≠ 0 → BitVec.ofNat 64 (leVal t) ≠ crc64 0 b →
        ∃ msg, items = pre ++ [.error (.error (.corruptData msg))]) ∧
    (r.crcChecked = true → r.finished = true ∧ ∃ b t, input = b ++ (t ++ r.reader.inner) ∧
      b.getLast? = some rdbOpcodeEof ∧ t.length = 8 ∧ 5 ≤ r.header.version ∧ leVal t ≠ 0 ∧
      BitVec.ofNat 64 (leVal t) = crc64 0 b) := by
  refine ⟨?_, ?_, ?_, ?_⟩
  · rcases h.checksumInv with ⟨b, hb, -⟩ | ⟨b, t, he⟩
    · exact ⟨b, [], hb.split, hb.crc, fun hne => absurd rfl hne⟩
    · exact ⟨b, t, he.split, he.crc, fun _ => ⟨he.finished, he.eof, he.trailer⟩⟩
  · rintro items r' ⟨m, hs, hm⟩ hf hx
    exact (h.steps hs).cleanEnd (h.steps_open hf hs hx) hm
  · intro items r' hy pre m eof b t hs he hsplit htake ht hv h0 hne
    have hm := h.steps hs
    obtain ⟨⟨bm, hbm⟩, -⟩ := hm.digested he.1
    obtain ⟨b', hb', -⟩ := he.digested hbm
    have hbb : b' = b := List.append_cancel_right (hb'.split.symm.trans hsplit)
    have hver := h.steps_header hs
    rcases he.next with ⟨hlen, -⟩ | ⟨t', rest, hi, ht', hcase⟩
    · rw [← htake, List.length_take] at ht
      omega
    · have htt : t' = t := by
        rw [← htake, hi, ← ht', List.take_left]
      subst htt
      rcases hcase with ⟨hc, -⟩ | ⟨-, -, hcrc, -⟩ | ⟨-, -, -, msg, hn⟩
      · rw [hver] at hc
        exact absurd ⟨hv, h0⟩ hc
      · rw [hb'.crc, hbb] at hcrc
        exact absurd hcrc.symm hne
      · refine ⟨msg, ?_⟩
        have hend := hs.yields (Yields.cons hn (Yields.nil (next_finished rfl)))
        exact (hy.unique hend).1
  · intro hc
    rcases h.checksumInv with ⟨b, hb, hcf⟩ | ⟨b, t, he⟩
    · rw [hcf] at hc
      cases hc
    · obtain ⟨hv, ht, h0, hcrc⟩ := he.checked hc
      exact ⟨he.finished, b, t, he.split, he.eof, ht, hv, h0, hcrc⟩

/-- "REDIS0011", the EOF opcode, and eight bytes that are not its checksum. -/
def badTrailerFile : Bytes := magicRedis ++ [48, 49, 49, 255, 1, 0, 0, 0, 0, 0, 0, 0]

/-- The reader of `badTrailerFile` after its preamble. -/
def badTrailerReader : RdbReader :=
  { RdbReader.afterHeader ⟨[1, 0, 0, 0, 0, 0, 0, 0], crc64 0 (badTrailerFile.take 10)⟩
      ⟨.redis, 11⟩ with preambleByte := some rdbOpcodeEof }

theorem checksum_integrity_bad_trailer : ∃ msg items r',
    RdbReader.new badTrailerFile = .ok badTrailerReader ∧
    Yields RdbReader.next badTrailerReader items r' ∧
    items = [] ++ [.error (.error (.corruptData msg))] := by
  have hnew : RdbReader.new badTrailerFile = .ok badTrailerReader := by decide +kernel
  have he : ReachesEof badTrailerReader { badTrailerReader with preambleByte := none } :=
    ⟨rfl, rfl, badTrailerReader, .refl _, rfl⟩
  have hy : ∃ items r', Yields RdbReader.next badTrailerReader items r' := by
    rcases he.next with ⟨-, hn⟩ | ⟨t, rest, -, -, ⟨-, hn⟩ | ⟨-, -, -, hn⟩ | ⟨-, -, -, msg, hn⟩⟩
    · exact ⟨_, _, Yields.cons hn (Yields.nil (next_finished rfl))⟩
    · exact ⟨_, _, Yields.nil hn⟩
    · exact ⟨_, _, Yields.nil hn⟩
    · exact ⟨_, _, Yields.cons hn (Yields.nil (next_finished rfl))⟩
  obtain ⟨items, r', hy⟩ := hy
  obtain ⟨msg, hmsg⟩ := (checksum_integrity badTrailerFile badTrailerReader (.new hnew)).2.2.1
    items r' hy [] badTrailerReader _ (badTrailerFile.take 10) [1, 0, 0, 0, 0, 0, 0, 0]
    (.nil _) he rfl rfl rfl (by decide) (by decide) (by decide +kernel)
  exact ⟨msg, items, r', hnew, hy, hmsg⟩

end ValkeyRdb
