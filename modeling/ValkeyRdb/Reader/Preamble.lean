import ValkeyRdb.Reader.Chunking
import ValkeyRdb.Reader.Prefix

/-!
# The preamble is a part of the opcode loop

Construction reads AUX fields up to the first other opcode and keeps its byte. A reader
that had only read the header would do the same in its first call, so a run can be
followed from the header on.
-/

namespace ValkeyRdb

open StateAction (Rounds run_bind_ok run_bind_error)

theorem opcodeLoop_congr {r s : RdbReader} (h : opcodeStep r = opcodeStep s) :
    opcodeLoop r = opcodeLoop s := by
  rcases hs : opcodeStep s with ⟨f | _ | x, s'⟩
  · rw [hs] at h
    exact (StateAction.loop_error h).trans (StateAction.loop_error hs).symm
  · rw [hs] at h
    exact (StateAction.loop_next opcodeStep_descends h).trans
      (StateAction.loop_next opcodeStep_descends hs).symm
  · rw [hs] at h
    exact (StateAction.loop_done h).trans (StateAction.loop_done hs).symm

theorem next_congr {r s : RdbReader} (hr : r.finished = false) (hs : s.finished = false)
    (hcr : r.chunked = none) (hcs : s.chunked = none) (h : opcodeLoop r = opcodeLoop s) :
    r.next = s.next := by
  rw [next_eq hr, next_eq hs, nextInner_unchunked hcr, nextInner_unchunked hcs, h]

theorem next_rounds {r s : RdbReader} (h : Rounds opcodeStep r s) (hr : r.finished = false)
    (hcr : r.chunked = none) (hcs : s.chunked = none) : r.next = s.next := by
  have hs : s.finished = false := (rounds_advances h).finished.trans hr
  exact next_congr hr hs hcr hcs (h.loop_eq opcodeStep_descends)

theorem Yields.of_next {σ ι : Type} {next : σ → Option ι × σ} {s t s' : σ} {xs : List ι}
    (h : next s = next t) (hy : Yields next t xs s') : Yields next s xs s' := by
  cases xs with
  | nil => exact Yields.nil (h.trans hy.nil_inv)
  | cons x xs =>
    obtain ⟨u, hx, hrest⟩ := hy.cons_inv
    exact Yields.cons (h.trans hx) hrest

/-- A reader between two records: the next byte is an opcode, in the unread input. -/
structure RdbReader.Between (r : RdbReader) : Prop where
  preambleByte : r.preambleByte = none
  finished : r.finished = false
  chunked : r.chunked = none

theorem readOpcode_cons {r : RdbReader} {b : UInt8} {rest : Bytes} (hp : r.preambleByte = none)
    (hi : r.reader.inner = b :: rest) : readOpcode r = (.ok b, r.afterByte b rest) := by
  rcases readOpcode_cases r with ⟨c, hc, -⟩ | ⟨-, c, rest', hi', he⟩ | ⟨-, hi', -⟩
  · rw [hp] at hc
    cases hc
  · rw [hi] at hi'
    cases hi'
    exact he
  · rw [hi] at hi'
    cases hi'

theorem readOpcode_nil {r : RdbReader} (hp : r.preambleByte = none) (hi : r.reader.inner = []) :
    readOpcode r = (.error eofFault, r) := by
  rcases readOpcode_cases r with ⟨c, hc, -⟩ | ⟨-, c, rest', hi', -⟩ | ⟨-, -, he⟩
  · rw [hp] at hc
    cases hc
  · rw [hi] at hi'
    cases hi'
  · exact he

section Configure

variable (limit : Option ℕ+)

theorem configure_chunked {r : RdbReader} (h : r.chunked = none) :
    (r.configure limit).chunked = none := by cases limit <;> exact h

theorem configure_finished {r : RdbReader} (h : r.finished = false) :
    (r.configure limit).finished = false := by cases limit <;> exact h

theorem configure_preambleByte (r : RdbReader) :
    (r.configure limit).preambleByte = r.preambleByte := by cases limit <;> rfl

theorem configure_reader (r : RdbReader) : (r.configure limit).reader = r.reader := by
  cases limit <;> rfl

theorem configure_afterByte (r : RdbReader) (b : UInt8) (rest : Bytes) :
    (r.configure limit).afterByte b rest = (r.afterByte b rest).configure limit := by
  cases limit <;> rfl

theorem configure_eq_rewire {r : RdbReader} (h : r.chunked = none) :
    r.configure limit = (chunkRewiring limit none).apply r := by
  cases r
  subst h
  cases limit <;> rfl

theorem readOpcode_configure {r : RdbReader} {b : UInt8} {rest : Bytes}
    (hp : r.preambleByte = none) (hi : r.reader.inner = b :: rest) :
    readOpcode (r.configure limit) = (.ok b, (r.afterByte b rest).configure limit) := by
  rw [← configure_afterByte]
  apply readOpcode_cons
  · rw [configure_preambleByte, hp]
  · rw [configure_reader, hi]

theorem readAuxField_configure {r r' : RdbReader} {x : Res Unit} (h : r.chunked = none)
    (hr : readAuxField r = (x, r')) :
    readAuxField (r.configure limit) = (x, r'.configure limit) := by
  have hsame := (chunkRewiring limit none).readAuxField r (fun _ _ hbad => hbad)
  have hset := readAuxField_settings r
  rw [hr] at hsame hset
  have hchunked : r'.chunked = none := (congrArg RdbReader.chunked hset).trans h
  rw [configure_eq_rewire limit h, hsame, configure_eq_rewire limit hchunked]

end Configure

theorem opcodeStep_of_preamble {r r' : RdbReader} (limit : Option ℕ+) (hp : r.preambleByte = none)
    (hc : r.chunked = none) (h : preambleStep r = (.ok none, r')) :
    opcodeStep (r.configure limit) = (.ok none, r'.configure limit) := by
  obtain ⟨rest, hi, hr⟩ := preambleStep_continue h
  have hopcode := readOpcode_configure limit hp hi
  have haux := readAuxField_configure limit (r := r.afterByte rdbOpcodeAux rest) hc hr
  have harm : opcodeArm rdbOpcodeAux ((r.afterByte rdbOpcodeAux rest).configure limit) =
      (.ok none, r'.configure limit) := run_bind_ok haux
  exact (run_bind_ok hopcode).trans harm

theorem rounds_of_preamble {r r' : RdbReader} (limit : Option ℕ+) (hp : r.preambleByte = none)
    (hc : r.chunked = none) (h : Rounds preambleStep r r') :
    Rounds opcodeStep (r.configure limit) (r'.configure limit) := by
  induction h with
  | refl => exact .refl _
  | head hb _ ih =>
    have hset := preambleStep_settings hb
    have hp' := (preambleStep_moves hb).preambleByte.trans hp
    refine .head (opcodeStep_of_preamble limit hp hc hb) (ih hp' ?_)
    rw [hset]
    exact hc

theorem liftRead_fault {α : Type} {p : ReadM α} {Q : α → Prop} (hp : ReadReturns p Q)
    {r r' : RdbReader} {f : Fault} (h : liftRead p r = (.error f, r')) : Terminal (.error f) := by
  have hret := hp r.reader
  have hrun : (p.run r.reader).1 = .error f := congrArg Prod.fst h
  rw [hrun] at hret
  exact terminal_of_inputError hret

theorem readAuxField_fault {r r' : RdbReader} {f : Fault} (h : readAuxField r = (.error f, r')) :
    Terminal (.error f) := by
  rcases StateAction.bind_eq_error h with hkey | ⟨key, r₁, -, h⟩
  · exact liftRead_fault readString_returns hkey
  rcases StateAction.bind_eq_error h with hvalue | ⟨value, r₂, -, h⟩
  · exact liftRead_fault readString_returns hvalue
  by_cases hutf8 : validUtf8 key = true
  · rw [if_pos hutf8] at h
    cases h
  · rw [if_neg hutf8] at h
    cases h
    exact trivial

theorem preambleStep_fault {r r' : RdbReader} {f : Fault} (h : preambleStep r = (.error f, r')) :
    Terminal (.error f) := by
  rcases StateAction.bind_eq_error h with hbyte | ⟨b, r₁, -, h⟩
  · exact liftRead_fault readU8_returns hbyte
  by_cases hb : b = rdbOpcodeAux
  · rw [if_pos hb] at h
    rcases StateAction.bind_eq_error h with haux | ⟨u, r₂, -, hpure⟩
    · exact readAuxField_fault haux
    · cases hpure
  · rw [if_neg hb] at h
    cases h

/-- The byte that ended the preamble is the next opcode, as if it had not been read. -/
theorem opcodeStep_replay (limit : Option ℕ+) {r : RdbReader} {b : UInt8} {rest : Bytes}
    (hp : r.preambleByte = none) (hi : r.reader.inner = b :: rest) :
    opcodeStep (RdbReader.configure { r.afterByte b rest with preambleByte := some b } limit) =
      opcodeStep (r.configure limit) := by
  have hreplay : readOpcode (RdbReader.configure
      { r.afterByte b rest with preambleByte := some b } limit) =
      (.ok b, (r.afterByte b rest).configure limit) := by
    have hback : ({ r.afterByte b rest with preambleByte := none } : RdbReader) =
        r.afterByte b rest := by
      cases r
      cases hp
      rfl
    rw [← hback]
    cases limit <;> rfl
  exact (run_bind_ok hreplay).trans (run_bind_ok (readOpcode_configure limit hp hi)).symm

theorem opcodeStep_fault (limit : Option ℕ+) {r r' : RdbReader} {f : Fault}
    (hp : r.preambleByte = none) (hc : r.chunked = none) (h : preambleStep r = (.error f, r')) :
    ∃ s, opcodeStep (r.configure limit) = (.error f, s) := by
  rcases preambleStep_cases r with ⟨hi, hs⟩ | ⟨b, rest, hi, ⟨rfl, hs⟩ | ⟨-, hs⟩⟩
  · rw [hs] at h
    cases h
    refine ⟨_, run_bind_error (readOpcode_nil ?_ ?_)⟩
    · rw [configure_preambleByte, hp]
    · rw [configure_reader, hi]
  · rw [hs] at h
    rcases StateAction.bind_eq_error h with haux | ⟨u, s, -, hpure⟩
    · have haux' := readAuxField_configure limit (r := r.afterByte rdbOpcodeAux rest) hc haux
      have harm : opcodeArm rdbOpcodeAux ((r.afterByte rdbOpcodeAux rest).configure limit) =
          (.error f, r'.configure limit) := run_bind_error haux'
      exact ⟨_, (run_bind_ok (readOpcode_configure limit hp hi)).trans harm⟩
    · cases hpure
  · rw [hs] at h
    cases h

/-- Construction, from the header on: it makes a reader whose calls are those of a reader
that has read the header only, or the first call of that one fails as construction does. -/
theorem new_cases {input : Bytes} {header : RdbHeader} {reader : CrcReader}
    (hh : readHeader.run ⟨input, 0⟩ = (.ok header, reader)) :
    (∃ r, RdbReader.new input = .ok r ∧ ∀ limit,
      (r.configure limit).next = ((RdbReader.afterHeader reader header).configure limit).next) ∨
    (∃ f, Terminal (.error f) ∧ RdbReader.new input = .error f ∧ ∀ limit, ∃ s,
      ((RdbReader.afterHeader reader header).configure limit).next = (some (.error f), s)) := by
  have hnew : ∀ {x r}, readPreamble (RdbReader.afterHeader reader header) = (x, r) →
      RdbReader.new input = x.map fun _ => r := by
    intro x r he
    unfold RdbReader.new
    rw [hh]
    dsimp only
    rw [he]
    cases x <;> rfl
  obtain ⟨r₁, hrounds, hmoves, hset, hend⟩ :=
    readPreamble_cases (RdbReader.afterHeader reader header)
  have hp₁ : r₁.preambleByte = none := hmoves.preambleByte
  have hf₁ : r₁.finished = false := hmoves.finished
  have hc₁ : r₁.chunked = none := by
    rw [hset]
    rfl
  have hstart : ∀ limit, ((RdbReader.afterHeader reader header).configure limit).next =
      (r₁.configure limit).next := fun limit =>
    next_rounds (rounds_of_preamble limit rfl rfl hrounds) (configure_finished limit rfl)
      (configure_chunked limit rfl) (configure_chunked limit hc₁)
  rcases hend with ⟨b, rest, hi, hb, he⟩ | ⟨f, r', hfail, he⟩
  · refine .inl ⟨_, hnew he, fun limit => ?_⟩
    rw [hstart]
    exact next_congr (configure_finished limit hf₁) (configure_finished limit hf₁)
      (configure_chunked limit hc₁) (configure_chunked limit hc₁)
      (opcodeLoop_congr (opcodeStep_replay limit hp₁ hi))
  · refine .inr ⟨f, preambleStep_fault hfail, hnew he, fun limit => ?_⟩
    rw [hstart]
    obtain ⟨s, hs⟩ := opcodeStep_fault limit hp₁ hc₁ hfail
    have hinner : nextInner (r₁.configure limit) = (.error f, s) := by
      rw [nextInner_unchunked (configure_chunked limit hc₁)]
      exact StateAction.loop_error hs
    rcases next_error (configure_finished limit hf₁) hinner with ⟨-, hn⟩ | ⟨-, hn⟩
    · exact ⟨_, hn⟩
    · exact ⟨_, hn⟩

end ValkeyRdb
