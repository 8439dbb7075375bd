import ValkeyRdb.Format.Listpack

/-!
# Walking a listpack backward

The back length after an entry lets a reader go from the end of the blob to its header:
the last byte holds the seven low bits, and a group whose top bit is set is continued in
the byte in front of it. The decoder takes the width of the back length from the entry
instead, and looks at the top bit of the first byte only, so it accepts back lengths that
a backward reader takes for shorter ones.
-/

namespace ValkeyRdb.Listpack

/-! ### Both directions -/

/-- The positions that the loop of `decode` stops at. -/
def boundaries (data : Bytes) : Nat → Nat → List Nat
  | 0, _ => []
  | fuel + 1, pos =>
    match decodeEntry (data.drop pos) with
    | .ok (_, entryLen) => pos :: boundaries data fuel (pos + entryLen + backlenSize entryLen)
    | .error _ => [pos]

/-- `lpDecodeBacklen` on the bytes in front of a position, the nearest one first: the value
and the number of bytes it takes. -/
def lpDecodeBacklen : Bytes → Nat → Option (Nat × Nat)
  | [], _ => none
  | b :: rest, shift =>
    if b &&& 0x80 = 0 then some ((b &&& 0x7F).toNat <<< shift, 1)
    else if 28 < shift + 7 then none
    else (lpDecodeBacklen rest (shift + 7)).map fun r =>
      (((b &&& 0x7F).toNat <<< shift) ||| r.1, r.2 + 1)

/-- The positions of a walk from `pos` to the header. -/
def walkBack (data : Bytes) : Nat → Nat → List Nat
  | 0, pos => [pos]
  | fuel + 1, pos =>
    if pos ≤ lpHdrSize then [pos]
    else
      match lpDecodeBacklen (data.take pos).reverse 0 with
      | some (entryLen, width) => pos :: walkBack data fuel (pos - (entryLen + width))
      | none => [pos]

def backlenAt (data : Bytes) (pos entryLen : Nat) : Bytes :=
  (data.drop (pos + entryLen)).take (backlenSize entryLen)

/-- In the back length of every entry all bytes but the first have the top bit set. -/
def Marked (data : Bytes) (starts : List Nat) : Prop :=
  ∀ pos ∈ starts, ∀ entry entryLen, decodeEntry (data.drop pos) = .ok (entry, entryLen) →
    ∀ b ∈ (backlenAt data pos entryLen).tail, b &&& 0x80 ≠ 0

/-! ### One back length -/

theorem decodeBacklenLoop_or {rev : Bytes} {val shift n : Nat}
    (h : decodeBacklenLoop rev val shift = .ok n) : ∃ x, n = val ||| x := by
  induction rev generalizing val shift with
  | nil =>
    cases h
    exact ⟨0, (Nat.or_zero _).symm⟩
  | cons b rest ih =>
    rw [decodeBacklenLoop] at h
    split at h
    · cases h
    · obtain ⟨x, hx⟩ := ih h
      exact ⟨_, by rw [hx, Nat.or_assoc]⟩

theorem lpDecodeBacklen_marked (init : Bytes) (last : UInt8) (more : Bytes) (shift : Nat)
    (hinit : ∀ b ∈ init, b &&& 0x80 ≠ 0) (hlast : last &&& 0x80 = 0)
    (hshift : shift + 7 * init.length ≤ 28) :
    ∃ v, lpDecodeBacklen (init ++ last :: more) shift = some (v, init.length + 1) ∧
      ∀ val, decodeBacklenLoop (init ++ [last]) val shift = .ok (val ||| v) := by
  induction init generalizing shift with
  | nil =>
    refine ⟨(last &&& 0x7F).toNat <<< shift, if_pos hlast, fun val => ?_⟩
    rw [List.nil_append, decodeBacklenLoop, if_neg (by simp at hshift; omega)]
    rfl
  | cons b bs ih =>
    rw [List.length_cons] at hshift
    obtain ⟨v, hv, hloop⟩ := ih (shift + 7) (fun c hc => hinit c (List.mem_cons_of_mem b hc))
      (by omega)
    refine ⟨((b &&& 0x7F).toNat <<< shift) ||| v, ?_, fun val => ?_⟩
    · rw [List.cons_append, lpDecodeBacklen, if_neg (hinit b List.mem_cons_self),
        if_neg (by omega), hv]
      rfl
    · rw [List.cons_append, decodeBacklenLoop, if_neg (by omega), hloop, Nat.or_assoc]

theorem lpDecodeBacklen_unmarked (init : Bytes) (last : UInt8) (more : Bytes) (shift : Nat)
    (hinit : ∃ b ∈ init, b &&& 0x80 = 0) (hshift : shift + 7 * init.length ≤ 28) :
    ∃ v w, lpDecodeBacklen (init ++ last :: more) shift = some (v, w) ∧ w < init.length + 1 ∧
      ∀ val n, decodeBacklenLoop (init ++ [last]) val shift = .ok n → ∃ x, n = (val ||| v) ||| x := by
  induction init generalizing shift with
  | nil => simp at hinit
  | cons b bs ih =>
    rw [List.length_cons] at hshift ⊢
    by_cases hb : b &&& 0x80 = 0
    · refine ⟨(b &&& 0x7F).toNat <<< shift, 1, ?_, by omega, fun val n hn => ?_⟩
      · rw [List.cons_append, lpDecodeBacklen, if_pos hb]
      · rw [List.cons_append, decodeBacklenLoop, if_neg (by omega)] at hn
        exact decodeBacklenLoop_or hn
    · have hrest : ∃ c ∈ bs, c &&& 0x80 = 0 := by
        obtain ⟨c, hc, hclear⟩ := hinit
        rcases List.mem_cons.mp hc with rfl | hc
        · exact absurd hclear hb
        · exact ⟨c, hc, hclear⟩
      obtain ⟨v, w, hv, hw, hle⟩ := ih (shift + 7) hrest (by omega)
      refine ⟨((b &&& 0x7F).toNat <<< shift) ||| v, w + 1, ?_, by omega, fun val n hn => ?_⟩
      · rw [List.cons_append, lpDecodeBacklen, if_neg hb, if_neg (by omega), hv]
        rfl
      · rw [List.cons_append, decodeBacklenLoop, if_neg (by omega)] at hn
        obtain ⟨x, hx⟩ := hle _ n hn
        exact ⟨x, by rw [hx, Nat.or_assoc val]⟩

theorem backlenSize_le (n : Nat) : backlenSize n ≤ 5 := by
  rw [backlenSize]
  split_ifs <;> omega

theorem decodeBacklen_ok {bl : Bytes} {n : Nat} (h : decodeBacklen bl = .ok n) :
    ∃ first rest, bl = first :: rest ∧ first &&& 0x80 = 0 ∧
      decodeBacklenLoop (rest.reverse ++ [first]) 0 0 = .ok n := by
  cases bl with
  | nil => cases h
  | cons first rest =>
    change (if first &&& 0x80 ≠ 0 then _ else _ : Res Nat) = _ at h
    by_cases hfirst : first &&& 0x80 = 0
    · rw [if_neg (not_not.mpr hfirst), List.reverse_cons] at h
      exact ⟨first, rest, rfl, hfirst, h⟩
    · rw [if_pos hfirst] at h
      cases h

/-- A backward reader behind an entry: it comes to the start of the entry exactly when the
back length is marked. -/
theorem lpDecodeBacklen_entry (pre : Bytes) {bl : Bytes} {entryLen : Nat}
    (hlen : bl.length = backlenSize entryLen) (h : decodeBacklen bl = .ok entryLen) :
    ((∀ b ∈ bl.tail, b &&& 0x80 ≠ 0) →
      lpDecodeBacklen (pre ++ bl).reverse 0 = some (entryLen, bl.length)) ∧
    (¬(∀ b ∈ bl.tail, b &&& 0x80 ≠ 0) →
      ∃ v w, lpDecodeBacklen (pre ++ bl).reverse 0 = some (v, w) ∧ v + w < entryLen + bl.length) := by
  obtain ⟨first, rest, rfl, hfirst, hloop⟩ := decodeBacklen_ok h
  have hshort := backlenSize_le entryLen
  rw [← hlen, List.length_cons] at hshort
  have hshift : 0 + 7 * rest.reverse.length ≤ 28 := by
    rw [List.length_reverse]
    omega
  have hrev : (pre ++ first :: rest).reverse = rest.reverse ++ first :: pre.reverse := by simp
  rw [hrev, List.tail_cons, List.length_cons]
  refine ⟨fun hmarked => ?_, fun hmarked => ?_⟩
  · obtain ⟨v, hv, hval⟩ := lpDecodeBacklen_marked rest.reverse first pre.reverse 0
      (fun b hb => hmarked b (List.mem_reverse.mp hb)) hfirst hshift
    rw [hval, Nat.zero_or] at hloop
    rw [hv, Except.ok.inj hloop, List.length_reverse]
  · have hclear : ∃ b ∈ rest.reverse, b &&& 0x80 = 0 := by
      by_contra hno
      exact hmarked fun b hb hz => hno ⟨b, List.mem_reverse.mpr hb, hz⟩
    obtain ⟨v, w, hv, hw, hval⟩ := lpDecodeBacklen_unmarked rest.reverse first pre.reverse 0
      hclear hshift
    obtain ⟨x, hx⟩ := hval 0 entryLen hloop
    have hle : v ≤ entryLen := by
      rw [hx, Nat.zero_or]
      exact Nat.left_le_or
    rw [List.length_reverse] at hw
    exact ⟨v, w, hv, by omega⟩

/-! ### Whole blobs -/

theorem decodeFrom_ok {data : Bytes} {fuel pos : Nat} {entries : List CompactEntry}
    (h : decodeFrom data (fuel + 1) pos = .ok entries) :
    (pos + 1 = data.length ∧ entries = [] ∧ data.drop pos = [lpEof]) ∨
      ∃ entry entryLen rest, entries = entry :: rest ∧
        decodeEntry (data.drop pos) = .ok (entry, entryLen) ∧
        pos + entryLen + backlenSize entryLen ≤ data.length ∧
        decodeBacklen (backlenAt data pos entryLen) = .ok entryLen ∧
        decodeFrom data fuel (pos + entryLen + backlenSize entryLen) = .ok rest := by
  rw [decodeFrom] at h
  by_cases hpos : pos ≥ data.length
  · rw [if_pos hpos] at h
    cases h
  rw [if_neg hpos, index_lt (by omega), ok_bind] at h
  by_cases heof : data[pos] = lpEof
  · rw [if_pos heof, sub64_eq (by omega), ok_bind] at h
    by_cases hlast : pos ≠ data.length - 1
    · rw [if_pos hlast] at h
      cases h
    · rw [if_neg hlast] at h
      cases h
      refine .inl ⟨by omega, rfl, ?_⟩
      rw [List.drop_eq_getElem_cons (by omega), heof, List.drop_eq_nil_of_le (by omega)]
  · rw [if_neg heof, sliceFrom_eq (by omega), ok_bind] at h
    cases hentry : decodeEntry (data.drop pos) with
    | error e =>
      rw [hentry] at h
      cases h
    | ok r =>
      obtain ⟨entry, entryLen⟩ := r
      rw [hentry, ok_bind] at h
      dsimp only at h
      by_cases hover : 2 ^ 64 ≤ pos + entryLen + backlenSize entryLen
      · rw [if_pos hover] at h
        cases h
      rw [if_neg hover] at h
      by_cases hend : pos + entryLen + backlenSize entryLen > data.length
      · rw [if_pos hend] at h
        cases h
      have hstart : pos + entryLen + backlenSize entryLen - backlenSize entryLen = pos + entryLen := by
        omega
      have hslice : slice data (pos + entryLen) (pos + entryLen + backlenSize entryLen) =
          .ok (backlenAt data pos entryLen) := by
        rw [slice_eq ⟨by omega, by omega⟩, List.drop_take, backlenAt, Nat.add_sub_cancel_left]
      rw [if_neg hend, sub64_eq (by omega), ok_bind, hstart, hslice, ok_bind] at h
      cases hback : decodeBacklen (backlenAt data pos entryLen) with
      | error e =>
        rw [hback] at h
        cases h
      | ok bl =>
        rw [hback, ok_bind] at h
        by_cases hne : bl ≠ entryLen
        · rw [if_pos hne] at h
          cases h
        rw [if_neg hne] at h
        cases hrest : decodeFrom data fuel (pos + entryLen + backlenSize entryLen) with
        | error e =>
          rw [hrest] at h
          cases h
        | ok rest =>
          rw [hrest] at h
          cases h
          have hbl : bl = entryLen := not_not.mp hne
          subst hbl
          exact .inr ⟨entry, bl, rest, rfl, rfl, by omega, hback, hrest⟩

theorem walkBack_head (data : Bytes) (fuel pos : Nat) :
    ∃ rest, walkBack data fuel pos = pos :: rest := by
  cases fuel with
  | zero => exact ⟨[], rfl⟩
  | succ fuel =>
    rw [walkBack]
    split
    · exact ⟨[], rfl⟩
    · split
      · exact ⟨_, rfl⟩
      · exact ⟨[], rfl⟩

theorem walkBack_entry {data : Bytes} {pos entryLen : Nat} (hpos : lpHdrSize ≤ pos)
    (hend : pos + entryLen + backlenSize entryLen ≤ data.length)
    (hback : decodeBacklen (backlenAt data pos entryLen) = .ok entryLen) (fuel : Nat) :
    ((∀ b ∈ (backlenAt data pos entryLen).tail, b &&& 0x80 ≠ 0) →
      walkBack data (fuel + 1) (pos + entryLen + backlenSize entryLen) =
        (pos + entryLen + backlenSize entryLen) :: walkBack data fuel pos) ∧
    (¬(∀ b ∈ (backlenAt data pos entryLen).tail, b &&& 0x80 ≠ 0) →
      ∃ pos', pos < pos' ∧ walkBack data (fuel + 1) (pos + entryLen + backlenSize entryLen) =
        (pos + entryLen + backlenSize entryLen) :: walkBack data fuel pos') := by
  have hsize := backlenSize_pos entryLen
  have hlen : (backlenAt data pos entryLen).length = backlenSize entryLen := by
    rw [backlenAt, List.length_take, List.length_drop]
    omega
  have htake : data.take (pos + entryLen + backlenSize entryLen) =
      data.take (pos + entryLen) ++ backlenAt data pos entryLen := List.take_add
  obtain ⟨hmarked, hunmarked⟩ := lpDecodeBacklen_entry (data.take (pos + entryLen)) hlen hback
  rw [← htake, hlen] at hmarked hunmarked
  rw [walkBack, if_neg (by omega)]
  refine ⟨fun hm => ?_, fun hm => ?_⟩
  · have hstart : pos + entryLen + backlenSize entryLen - (entryLen + backlenSize entryLen) = pos := by
      omega
    rw [hmarked hm]
    dsimp only
    rw [hstart]
  · obtain ⟨v, w, hv, hlt⟩ := hunmarked hm
    refine ⟨pos + entryLen + backlenSize entryLen - (v + w), by omega, ?_⟩
    rw [hv]

theorem marked_cons {data : Bytes} {pos : Nat} {entry : CompactEntry} {entryLen : Nat}
    {starts : List Nat} (h : decodeEntry (data.drop pos) = .ok (entry, entryLen)) :
    Marked data (pos :: starts) ↔
      (∀ b ∈ (backlenAt data pos entryLen).tail, b &&& 0x80 ≠ 0) ∧ Marked data starts := by
  rw [Marked, List.forall_mem_cons]
  refine and_congr_left fun _ => ⟨fun hm => hm entry entryLen h, fun hm e n hn => ?_⟩
  rw [h] at hn
  cases hn
  exact hm

/-- From the end of an accepted blob the walk goes through the boundaries of the entries
behind `pos` as long as these entries are marked, and misses one if they are not. -/
theorem walkBack_from {data : Bytes} {fuel pos : Nat} {entries : List CompactEntry}
    (h : decodeFrom data fuel pos = .ok entries) (hpos : lpHdrSize ≤ pos) :
    ∃ later, boundaries data fuel pos = pos :: later ∧
      (Marked data (pos :: later) → ∀ k, walkBack data (k + entries.length) (data.length - 1) =
        later.reverse ++ walkBack data k pos) ∧
      (¬Marked data (pos :: later) → ∀ k,
        ¬(later.reverse ++ [pos] <+: walkBack data (k + entries.length) (data.length - 1))) := by
  induction fuel generalizing pos entries with
  | zero => cases h
  | succ fuel ih =>
    rcases decodeFrom_ok h with ⟨hlast, rfl, hdrop⟩ | ⟨entry, entryLen, rest, rfl, hentry, hend, hback,
      hrest⟩
    · obtain ⟨e, he⟩ : ∃ e, decodeEntry (data.drop pos) = .error e := by
        rw [hdrop]
        exact ⟨_, rfl⟩
      have hmarked : Marked data [pos] := by
        intro p hp entry n hn
        rw [List.mem_singleton.mp hp, he] at hn
        cases hn
      have hstart : data.length - 1 = pos := by omega
      refine ⟨[], ?_, fun _ k => ?_, fun hno => absurd hmarked hno⟩
      · rw [boundaries, he]
      · rw [hstart]
        rfl
    · obtain ⟨later, hbound, hgood, hbad⟩ := ih hrest (by omega)
      have hstep := fun k => (walkBack_entry hpos hend hback k).1
      have hmiss := fun k => (walkBack_entry hpos hend hback k).2
      generalize hnext : pos + entryLen + backlenSize entryLen = next at *
      refine ⟨next :: later, ?_, ?_, ?_⟩
      · rw [boundaries, hentry]
        dsimp only
        rw [hnext, hbound]
      · intro hm k
        obtain ⟨hhead, htail⟩ := (marked_cons hentry).mp hm
        have hwalk := hgood htail (k + 1)
        rw [hstep k hhead] at hwalk
        rw [List.length_cons, Nat.add_comm rest.length, ← Nat.add_assoc, hwalk, List.reverse_cons,
          List.append_assoc]
        rfl
      · intro hm k hprefix
        rw [List.length_cons, Nat.add_comm rest.length, ← Nat.add_assoc, List.reverse_cons] at hprefix
        by_cases htail : Marked data (next :: later)
        · have hhead : ¬∀ b ∈ (backlenAt data pos entryLen).tail, b &&& 0x80 ≠ 0 :=
            fun hh => hm ((marked_cons hentry).mpr ⟨hh, htail⟩)
          obtain ⟨pos', hlt, hwalk⟩ := hmiss k hhead
          obtain ⟨tail, htail'⟩ := walkBack_head data k pos'
          rw [hgood htail (k + 1), hwalk, htail', List.append_assoc,
            List.prefix_append_right_inj] at hprefix
          simp only [List.singleton_append, List.cons_prefix_cons] at hprefix
          omega
        · exact hbad htail (k + 1) ((List.prefix_append _ _).trans hprefix)

theorem decode_ok {data : Bytes} {entries : List CompactEntry} (h : decode data = .ok entries) :
    leVal (data.take 4) = data.length ∧ decodeFrom data data.length lpHdrSize = .ok entries := by
  rw [decode] at h
  by_cases hshort : data.length < lpHdrSize + 1
  · rw [if_pos hshort] at h
    cases h
  rw [lpHdrSize] at hshort
  rw [if_neg (by rw [lpHdrSize]; omega), slice_eq ⟨by omega, by omega⟩, ok_bind] at h
  dsimp only at h
  rw [List.drop_zero] at h
  by_cases hsize : leVal (data.take 4) ≠ data.length
  · rw [if_pos hsize] at h
    cases h
  · rw [if_neg hsize, slice_eq ⟨by omega, by omega⟩, ok_bind] at h
    exact ⟨not_not.mp hsize, h⟩

theorem decode_length_lt {data : Bytes} {entries : List CompactEntry}
    (h : decode data = .ok entries) : entries.length < 2 ^ 32 := by
  have hreturns := decode_returns data
  rw [h] at hreturns
  have hlen : entries.length ≤ data.length := hreturns
  have hsize := leVal_take_lt 4 data
  rw [(decode_ok h).1] at hsize
  omega

/-- A backward reader visits the boundaries of the entries of an accepted blob, down to
the header, exactly when all their back lengths are marked. -/
theorem accepted_walks_back (data : Bytes) (entries : List CompactEntry)
    (h : decode data = .ok entries) :
    walkBack data data.length (data.length - 1) =
        (boundaries data data.length lpHdrSize).reverse ↔
      Marked data (boundaries data data.length lpHdrSize) := by
  have hreturns := decode_returns data
  rw [h] at hreturns
  have hlen : entries.length ≤ data.length := hreturns
  obtain ⟨later, hbound, hgood, hbad⟩ := walkBack_from (decode_ok h).2 le_rfl
  obtain ⟨k, hk⟩ : ∃ k, data.length = k + entries.length := ⟨data.length - entries.length, by omega⟩
  have hheader : ∀ k, walkBack data k lpHdrSize = [lpHdrSize] := by
    intro k
    cases k with
    | zero => rfl
    | succ k => exact if_pos le_rfl
  rw [hbound, List.reverse_cons]
  constructor
  · intro hwalk
    by_contra hm
    refine hbad hm k ?_
    exact ⟨[], by simpa only [List.append_nil, hk] using hwalk.symm⟩
  · intro hm
    have hwalk := hgood hm k
    rw [hheader, ← hk] at hwalk
    exact hwalk

/-- One string of 126 letters, behind it the back length 128 in two bytes. -/
def longBlob (low : UInt8) : Bytes :=
  leBytes 4 137 ++ [1, 0, 0xE0, 126] ++ List.replicate 126 97 ++ [1, low, lpEof]

theorem accepted_walks_back_marked :
    walkBack (longBlob 0x80) (longBlob 0x80).length ((longBlob 0x80).length - 1) =
        (boundaries (longBlob 0x80) (longBlob 0x80).length lpHdrSize).reverse ↔
      Marked (longBlob 0x80) (boundaries (longBlob 0x80) (longBlob 0x80).length lpHdrSize) :=
  accepted_walks_back (longBlob 0x80) [.str (List.replicate 126 97)] (by decide +kernel)

theorem accepted_walks_back_unmarked :
    decode (longBlob 0) = .ok [.str (List.replicate 126 97)] ∧
      walkBack (longBlob 0) (longBlob 0).length ((longBlob 0).length - 1) ≠
        (boundaries (longBlob 0) (longBlob 0).length lpHdrSize).reverse := by
  decide +kernel

end ValkeyRdb.Listpack
