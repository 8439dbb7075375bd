import ValkeyRdb.Reader.Rewiring
import ValkeyRdb.Reader.Termination

/-!
# Longer inputs

A reader behaves on `B ++ C` as on `B` up to the point where `B` ends too early, so a
truncated file is never taken for a whole one.
-/

namespace ValkeyRdb

/-- The reader with `c` appended to its unread input. -/
def RdbReader.append (r : RdbReader) (c : Bytes) : RdbReader :=
  { r with reader := r.reader.append c }

/-- A chunk setting: a limit, or no chunking. -/
def RdbReader.configure (r : RdbReader) : Option ℕ+ → RdbReader
  | some max => r.withMaxKeyElements max
  | none => r.withoutChunking

theorem configure_append (r : RdbReader) (c : Bytes) (limit : Option ℕ+) :
    (r.append c).configure limit = (r.configure limit).append c := by
  cases limit <;> rfl

theorem Reachable.configure {input : Bytes} {r : RdbReader} (h : Reachable input r)
    (limit : Option ℕ+) : Reachable input (r.configure limit) := by
  cases limit with
  | none => exact h.withoutChunking
  | some max => exact h.withMaxKeyElements max

theorem new_append (b c : Bytes) (h : RdbReader.new b ≠ .error eofFault) :
    RdbReader.new (b ++ c) = (RdbReader.new b).map (·.append c) := by
  rw [RdbReader.new] at h ⊢
  rw [RdbReader.new]
  have hheader := readHeader.run_append ⟨b, 0⟩ c
  rcases hh : readHeader.run ⟨b, 0⟩ with ⟨f | header, reader⟩
  · rw [hh] at h hheader
    have hrun := hheader fun he => h (by cases he; rfl)
    change readHeader.run ⟨b ++ c, 0⟩ = _ at hrun
    rw [hrun]
    rfl
  · rw [hh] at h hheader
    have hrun := hheader fun he => by cases he
    change readHeader.run ⟨b ++ c, 0⟩ = _ at hrun
    rw [hrun]
    dsimp only at h ⊢
    have hpre := (appendRewiring c).readPreamble (RdbReader.afterHeader reader header)
    rcases hp : readPreamble (RdbReader.afterHeader reader header) with ⟨f | u, r⟩
    · rw [hp] at h hpre
      have hrun' := hpre fun f' hf' he => h (by cases hf'; rw [he])
      change readPreamble (RdbReader.afterHeader (reader.append c) header) = _ at hrun'
      rw [hrun']
      rfl
    · rw [hp] at hpre
      have hrun' := hpre fun f' hf' he => by cases hf'
      change readPreamble (RdbReader.afterHeader (reader.append c) header) = _ at hrun'
      rw [hrun']
      rfl

theorem yields_append {r r' : RdbReader} {items : List (Res RdbEntry)} (c : Bytes)
    (hy : Yields RdbReader.next r items r') (h : .error eofFault ∉ items) :
    Yields RdbReader.next (r.append c) items (r'.append c) :=
  (appendRewiring_keepsChunking c).yields hy fun _ hf he => h (he ▸ hf)

theorem steps_append {r r' : RdbReader} {items pre post : List (Res RdbEntry)} (c : Bytes)
    (hs : Steps RdbReader.next r items r') (he : items = pre ++ .error eofFault :: post) :
    ∃ m, Steps RdbReader.next (r.append c) pre m := by
  induction hs generalizing pre with
  | nil =>
    rw [eq_comm, List.append_eq_nil_iff] at he
    cases he.2
  | @cons s s' s'' x xs hn ht ih =>
    cases pre with
    | nil => exact ⟨_, .nil _⟩
    | cons p ps =>
      obtain ⟨rfl, hxs⟩ := List.cons.inj he
      change xs = ps ++ .error eofFault :: post at hxs
      have hx : x ≠ .error eofFault := by
        rintro rfl
        have hnil := steps_finished (next_terminal hn trivial) ht
        rw [hnil, eq_comm, List.append_eq_nil_iff] at hxs
        cases hxs.2
      have hgood : ∀ f, s.next.1 = some (.error f) → ¬f = eofFault := by
        rintro f hf rfl
        rw [hn] at hf
        exact hx (Option.some.inj hf)
      have hn' := (appendRewiring_keepsChunking c).next hgood
      rw [hn] at hn'
      obtain ⟨m, hm⟩ := ih hxs
      exact ⟨m, .cons hn' hm⟩

/-- `input` is read as a whole file: construction succeeds and the iteration ends without
an error that would end it. -/
def Accepted (input : Bytes) (limit : Option ℕ+) : Prop :=
  ∃ r items r', RdbReader.new input = .ok r ∧
    Yields RdbReader.next (r.configure limit) items r' ∧ ∀ x ∈ items, ¬Terminal x

theorem eof_not_mem {items : List (Res RdbEntry)} (h : ∀ x ∈ items, ¬Terminal x) :
    .error eofFault ∉ items := fun hm => h _ hm trivial

/-- Bytes after the ones a run needed change nothing; a run that needed more bytes yields
up to that point what the longer input yields; so no strict prefix of the bytes that a
clean run took is accepted. -/
theorem prefix_stable (b c : Bytes) (limit : Option ℕ+) :
    (∀ f, RdbReader.new b = .error f → f ≠ eofFault → RdbReader.new (b ++ c) = .error f) ∧
    (∀ r, RdbReader.new b = .ok r → ∃ s, RdbReader.new (b ++ c) = .ok s ∧
      s.header = r.header ∧ s.metadata = r.metadata ∧ ∃ items r' items' s',
        Yields RdbReader.next (r.configure limit) items r' ∧
        Yields RdbReader.next (s.configure limit) items' s' ∧
        (.error eofFault ∉ items →
          items' = items ∧ s'.metadata = r'.metadata ∧ s'.crcChecked = r'.crcChecked) ∧
        ∀ pre post, items = pre ++ .error eofFault :: post → pre <+: items') ∧
    (∀ r items r', RdbReader.new b = .ok r → Yields RdbReader.next (r.configure limit) items r' →
      (∀ x ∈ items, ¬Terminal x) → ∀ p q, b = p ++ q → r'.reader.inner.length < q.length →
        ¬Accepted p limit) := by
  refine ⟨fun f hf hne => ?_, fun r hr => ?_, ?_⟩
  · rw [new_append b c (by rw [hf]; exact fun he => hne (by cases he; rfl)), hf]
    rfl
  · have hs : RdbReader.new (b ++ c) = .ok (r.append c) := by
      rw [new_append b c (by rw [hr]; exact fun he => by cases he), hr]
      rfl
    have hy := ((Reachable.new hr).configure limit).yields
    have hy' := ((Reachable.new hs).configure limit).yields
    refine ⟨_, hs, rfl, rfl, _, _, _, _, hy, hy', fun heof => ?_, fun pre post he => ?_⟩
    · have happ := yields_append c hy heof
      rw [← configure_append] at happ
      obtain ⟨hitems, hend⟩ := hy'.unique happ
      rw [hend]
      exact ⟨hitems, rfl, rfl⟩
    · obtain ⟨m, hsteps, -⟩ := hy
      obtain ⟨m', hm'⟩ := steps_append c hsteps he
      rw [← configure_append] at hm'
      exact hm'.isPrefix hy'
  · rintro r items r' hr hy hclean p q hpq hlen ⟨s, items', s', hs, hys, hclean'⟩
    have happ := yields_append q hys (eof_not_mem hclean')
    have hnew : RdbReader.new b = .ok (s.append q) := by
      rw [hpq, new_append p q (by rw [hs]; exact fun he => by cases he), hs]
      rfl
    rw [hr] at hnew
    obtain rfl : r = s.append q := by cases hnew; rfl
    rw [configure_append] at hy
    have hend := (hy.unique happ).2
    rw [hend] at hlen
    change (s'.reader.inner ++ q).length < q.length at hlen
    rw [List.length_append] at hlen
    omega

end ValkeyRdb
