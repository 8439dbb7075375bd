import ValkeyRdb.Reader.Checksum
import ValkeyRdb.Reader.Safety

/-!
# Every iteration ends

Each item costs the reader at least one byte of its input, or is its last one.
-/

namespace ValkeyRdb

open StateAction (Rounds run_bind_ok run_bind_error)

theorem readNElements_consumes {typeCode : UInt8} (hp : isPlainType typeCode = true) {n : Nat}
    (hn : 0 < n) : ReadAction.Consumes (readNElements typeCode n) := by
  unfold readNElements
  split
  · exact (readString_consumes.replicate hn).bind _
  · exact (readString_consumes.replicate hn).bind _
  · exact ((readString_consumes.bind _).replicate hn).bind _
  · exact ((readString_consumes.bind _).replicate hn).bind _
  · exact ((readString_consumes.bind _).replicate hn).bind _
  · exact ((readString_consumes.bind _).replicate hn).bind _
  · rename_i h1 h2 h3 h4 h5 h6
    exfalso
    unfold isPlainType at hp
    split at hp
    · exact h1 rfl
    · exact h2 rfl
    · exact h3 rfl
    · exact h4 rfl
    · exact h5 rfl
    · exact h6 rfl
    · cases hp

/-- A bound on the number of items a reader still yields. -/
def RdbReader.itemBound (r : RdbReader) : Nat := if r.finished then 0 else r.pendingBytes + 1

theorem itemBound_open {r : RdbReader} (h : r.finished = false) :
    r.itemBound = r.pendingBytes + 1 := if_neg (by rw [h]; exact Bool.false_ne_true)

theorem next_error_bound {r r' r'' : RdbReader} {f : Fault} {x : Res RdbEntry}
    (hf : r.finished = false) (hn : nextInner r = (.error f, r')) (hx : r.next = (some x, r''))
    (hlt : ¬Terminal (.error f) → r'.pendingBytes < r.pendingBytes ∧ r'.finished = false) :
    r''.itemBound < r.itemBound := by
  rw [itemBound_open hf]
  rcases next_error hf hn with ⟨ht, he⟩ | ⟨-, he⟩
  · rw [he] at hx
    cases hx
    obtain ⟨hp, hf'⟩ := hlt ht
    rw [itemBound_open hf']
    omega
  · rw [he] at hx
    cases hx
    exact Nat.succ_pos _

theorem readChunk_bound {r r' : RdbReader} {x : Res RdbEntry} {s : ChunkedState}
    (hr : r.Valid) (hf : r.finished = false) (hc : r.chunked = some s)
    (hx : r.next = (some x, r')) : r'.itemBound < r.itemBound := by
  have hs := hr s hc
  have hrun := nextInner_chunked hc
  cases hm : r.maxKeyElements with
  | none =>
    have hstate : chunkedState "read_chunk called without chunked state" r = (.ok s, r) := by
      rw [chunkedState, StateAction.run_get_bind, hc]
      rfl
    have hlimit : chunkLimit r = (corrupt "chunked state without max_key_elements", r) := by
      rw [chunkLimit, StateAction.run_get_bind, hm]
      rfl
    have hread : readChunk r = (corrupt "chunked state without max_key_elements", r) :=
      (run_bind_ok hstate).trans (run_bind_error hlimit)
    rw [run_bind_error hread] at hrun
    exact next_error_bound hf hrun hx fun ht => absurd trivial ht
  | some max =>
    have hpos : 0 < min (max : Nat) s.remaining := by
      have h1 := max.pos
      have h2 := hs.pos
      omega
    have hread := readChunk_eq hc hm hs
    have hcons := readNElements_consumes hs.plain hpos r.reader
    have hret := readNElements_returns s.typeCode (min max s.remaining) r.reader
    generalize (readNElements s.typeCode (min max s.remaining)).run r.reader = o
      at hread hcons hret
    obtain ⟨f | value, rd⟩ := o
    · rw [run_bind_error hread] at hrun
      refine next_error_bound hf hrun hx fun ht => absurd ?_ ht
      change f.IsInputError at hret
      rcases f with (_ | _ | _ | _ | _) | _ | _
      · trivial
      · trivial
      · trivial
      · trivial
      · exact hret
      · trivial
      · trivial
    · rw [run_bind_ok hread] at hrun
      rw [next_entry hf hrun] at hx
      cases hx
      have hopen : ({ r with
          reader := rd, chunked := s.advance (min max s.remaining) } : RdbReader).finished = false := hf
      rw [itemBound_open hopen, itemBound_open hf]
      have hlt : rd.inner.length < r.reader.inner.length := hcons value rfl
      simp only [RdbReader.pendingBytes]
      omega

theorem next_bound {r r' : RdbReader} {x : Res RdbEntry} (hr : r.Valid)
    (hx : r.next = (some x, r')) : r'.itemBound < r.itemBound := by
  have hf : r.finished = false := by
    cases hf : r.finished with
    | false => rfl
    | true =>
      rw [next_finished hf] at hx
      cases hx
  cases hc : r.chunked with
  | some s => exact readChunk_bound hr hf hc hx
  | none =>
    have hrun := nextInner_unchunked hc
    obtain ⟨r₁, hrounds, hloop⟩ := opcodeLoop_cases r
    rcases hloop with ⟨ho, hl⟩ | ⟨c, r₂, ho, hloop⟩
    · rw [hl] at hrun
      exact next_error_bound hf hrun hx fun ht => absurd trivial ht
    · have hlt : r₂.pendingBytes < r.pendingBytes :=
        lt_of_lt_of_le (readOpcode_pendingBytes ho) (rounds_pendingBytes hrounds)
      by_cases hb : c = rdbOpcodeEof
      · subst hb
        have he : ReachesEof r r₂ := ⟨hf, hc, r₁, hrounds, ho⟩
        rcases he.next with ⟨-, hn⟩ | ⟨t, rest, -, -, ⟨-, hn⟩ | ⟨-, -, -, hn⟩ | ⟨-, -, -, msg, hn⟩⟩
        · rw [hn] at hx
          cases hx
          rw [itemBound_open hf]
          exact Nat.succ_pos _
        · rw [hn] at hx
          cases hx
        · rw [hn] at hx
          cases hx
        · rw [hn] at hx
          cases hx
          rw [itemBound_open hf]
          exact Nat.succ_pos _
      · have hm := opcodeArm_moves hb r₂
        have hopen : r₂.finished = false :=
          (readOpcode_advances ho).finished.trans ((rounds_advances hrounds).finished.trans hf)
        rcases hloop with ⟨y, r₃, harm, hl⟩ | ⟨f, r₃, harm, hl⟩
        · rw [harm] at hm
          rw [hl] at hrun
          cases y with
          | none =>
            rw [next_none hf hrun] at hx
            cases hx
          | some e =>
            rw [next_entry hf hrun] at hx
            cases hx
            rw [itemBound_open hf, itemBound_open (hm.finished.trans hopen)]
            have := hm.pendingBytes_le
            omega
        · rw [harm] at hm
          rw [hl] at hrun
          refine next_error_bound hf hrun hx fun _ => ?_
          exact ⟨lt_of_le_of_lt hm.pendingBytes_le hlt, hm.finished.trans hopen⟩

/-- The items of a reader, by running it. -/
def RdbReader.items (r : RdbReader) : List (Res RdbEntry) × RdbReader :=
  collect RdbReader.next (r.itemBound + 1) r

theorem Reachable.yields {input : Bytes} {r : RdbReader} (h : Reachable input r) :
    Yields RdbReader.next r r.items.1 r.items.2 :=
  yields_collect (I := RdbReader.Valid)
    (fun s x s' hs hn => ⟨by have := (next_safe hs).1; rwa [hn] at this, next_bound hs hn⟩)
    h.valid (Nat.lt_succ_self _)

end ValkeyRdb
