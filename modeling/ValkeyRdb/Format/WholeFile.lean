import ValkeyRdb.Format.File

/-!
# Reading a whole file

A file of supported records is read to its end, with one entry for each key, if its records
are within the caps and its version has a trailer.
-/

namespace ValkeyRdb

open ReadAction (Decodes DecodesWhen FailsWith)

structure HeaderForm where
  headerBytes : Bytes
  header : RdbHeader
  header_length : headerBytes.length = 9
  header_eq : parseHeader headerBytes = .ok header

namespace HeaderForm

def opened (f : HeaderForm) (limit : Option ℕ+) (rest : Bytes) : RdbReader :=
  (RdbReader.afterHeader ⟨rest, crc64 0 f.headerBytes⟩ f.header).configure limit

theorem opened_at (f : HeaderForm) (limit : Option ℕ+) (rest : Bytes) :
    (f.opened limit rest).At Context.start limit rest := by
  cases limit <;> exact ⟨⟨rfl, rfl, rfl⟩, rfl, rfl, rfl⟩

theorem opened_crc (f : HeaderForm) (limit : Option ℕ+) (rest : Bytes) :
    (f.opened limit rest).reader.crc = crc64 0 f.headerBytes := by
  cases limit <;> rfl

theorem readHeader_decodes (f : HeaderForm) : Decodes readHeader f.headerBytes f.header := by
  have hbuf : Decodes (ReadAction.readExact 9 : ReadM Bytes) f.headerBytes f.headerBytes :=
    ReadAction.decodes_readExact_of_length f.header_length
  exact hbuf.bind_pure (Decodes.lift f.header_eq)

/-- What the reader of a file yields is what a reader behind the header would. -/
theorem new_yields (f : HeaderForm) {limit : Option ℕ+} {rest : Bytes}
    {items : List (Res RdbEntry)} {s : RdbReader}
    (hy : Yields RdbReader.next (f.opened limit rest) items s) :
    (∃ r, RdbReader.new (f.headerBytes ++ rest) = .ok r ∧
      Yields RdbReader.next (r.configure limit) items s) ∨
    (∃ e, Terminal (.error e) ∧ RdbReader.new (f.headerBytes ++ rest) = .error e ∧
      items = [.error e]) := by
  have hh := f.readHeader_decodes.run rest 0
  rcases new_cases hh with ⟨r, hr, hnext⟩ | ⟨e, ht, he, hnext⟩
  · exact .inl ⟨r, hr, hy.of_next (hnext limit)⟩
  · refine .inr ⟨e, ht, he, ?_⟩
    obtain ⟨s', hs'⟩ := hnext limit
    exact (hy.unique (yields_terminal hs' ht)).1

/-- The other direction, for a file whose construction succeeds. -/
theorem yields_of_new (f : HeaderForm) {limit : Option ℕ+} {rest : Bytes} {r s : RdbReader}
    {items : List (Res RdbEntry)} (hr : RdbReader.new (f.headerBytes ++ rest) = .ok r)
    (hy : Yields RdbReader.next (r.configure limit) items s) :
    Yields RdbReader.next (f.opened limit rest) items s := by
  have hh := f.readHeader_decodes.run rest 0
  rcases new_cases hh with ⟨r', hr', hnext⟩ | ⟨e, -, he, -⟩
  · rw [hr] at hr'
    cases hr'
    exact hy.of_next (hnext limit).symm
  · rw [hr] at he
    cases he

end HeaderForm

structure FileForm extends HeaderForm where
  records : List Record

namespace FileForm

def body (f : FileForm) : Bytes := f.headerBytes ++ (recordBytes f.records ++ [rdbOpcodeEof])

/-- The trailer of the version: a checksum that is zero or correct, or none at all. -/
def TrailerOk (f : FileForm) (trailer : Bytes) : Prop :=
  if 5 ≤ f.header.version then
    trailer.length = 8 ∧ (leVal trailer = 0 ∨ BitVec.ofNat 64 (leVal trailer) = crc64 0 f.body)
  else trailer = []

end FileForm

/-! ### The end of a file -/

theorem reachesEof_at {r : RdbReader} {c : Context} {limit : Option ℕ+} {trailer : Bytes}
    (hr : r.At c limit (rdbOpcodeEof :: trailer)) :
    ReachesEof r (r.past [rdbOpcodeEof] trailer) :=
  ⟨hr.finished, hr.chunked, r, .refl r, readOpcode_cons hr.preambleByte hr.inner⟩

theorem eof_clean {r : RdbReader} {c : Context} {limit : Option ℕ+} {t : Bytes} (rest : Bytes)
    (hr : r.At c limit (rdbOpcodeEof :: (t ++ rest))) (ht : t.length = 8)
    (hsum : leVal t = 0 ∨ BitVec.ofNat 64 (leVal t) = crc64 r.reader.crc [rdbOpcodeEof]) :
    ∃ s, r.next = (none, s) := by
  rcases (reachesEof_at hr).next with ⟨hshort, -⟩ | ⟨t', rest', hsplit, ht', h⟩
  · change (t ++ rest).length < 8 at hshort
    rw [List.length_append] at hshort
    omega
  · change t ++ rest = t' ++ rest' at hsplit
    obtain ⟨rfl, rfl⟩ := List.append_inj hsplit (ht.trans ht'.symm)
    rcases h with ⟨-, hn⟩ | ⟨-, -, -, hn⟩ | ⟨-, h0, hcrc, -⟩
    · exact ⟨_, hn⟩
    · exact ⟨_, hn⟩
    · rcases hsum with h | h
      · exact absurd h h0
      · exact absurd h.symm hcrc

theorem eof_short {r : RdbReader} {c : Context} {limit : Option ℕ+}
    (hr : r.At c limit [rdbOpcodeEof]) : ∃ s, Yields RdbReader.next r [.error eofFault] s := by
  rcases (reachesEof_at hr).next with ⟨-, hn⟩ | ⟨t, rest, hsplit, ht, -⟩
  · exact ⟨_, yields_terminal hn trivial⟩
  · change [] = t ++ rest at hsplit
    have hlen := congrArg List.length hsplit
    rw [List.length_append, List.length_nil] at hlen
    omega

namespace FileForm

theorem body_append (f : FileForm) (trailer : Bytes) : f.body ++ trailer =
    f.headerBytes ++ (recordBytes f.records ++ (rdbOpcodeEof :: trailer)) := by
  unfold body
  simp

theorem opened_yields (f : FileForm) {limit : Option ℕ+} {trailer : Bytes}
    {items : List (Res RdbEntry)} {c : Context} (hv : 5 ≤ f.header.version)
    (ht : f.TrailerOk trailer)
    (hpass : Passes limit Context.start (recordBytes f.records) items c) :
    ∃ s, Yields RdbReader.next (f.opened limit (recordBytes f.records ++ rdbOpcodeEof :: trailer))
      items s := by
  unfold TrailerOk at ht
  rw [if_pos hv] at ht
  obtain ⟨hlen, hsum⟩ := ht
  obtain ⟨r, hr, -, hcrc, hy⟩ := hpass _ (rdbOpcodeEof :: trailer) (f.opened_at limit _)
  rw [← List.append_nil trailer] at hr
  obtain ⟨s, hs⟩ := eof_clean [] hr hlen <| by
    rw [hcrc, HeaderForm.opened_crc, ← crc64_append, ← crc64_append]
    exact hsum
  have hend := hy [] s (Yields.nil hs)
  rw [List.append_nil] at hend
  exact ⟨s, hend⟩

theorem opened_yields_old (f : FileForm) {limit : Option ℕ+} {items : List (Res RdbEntry)}
    {c : Context} (hpass : Passes limit Context.start (recordBytes f.records) items c) :
    ∃ s, Yields RdbReader.next (f.opened limit (recordBytes f.records ++ [rdbOpcodeEof]))
      (items ++ [.error eofFault]) s := by
  obtain ⟨r, hr, -, -, hy⟩ := hpass _ [rdbOpcodeEof] (f.opened_at limit _)
  obtain ⟨s, hs⟩ := eof_short hr
  exact ⟨s, hy _ _ hs⟩

end FileForm

theorem recordItems_not_terminal (past records : List Record) :
    ∀ x ∈ recordItems past records, ¬Terminal x := by
  induction records generalizing past with
  | nil => exact fun x hx => absurd hx List.not_mem_nil
  | cons t ts ih =>
    have hrest := ih (t :: past)
    cases t with
    | opcode o => exact hrest
    | key k => exact List.forall_mem_cons.mpr ⟨id, hrest⟩
    | zipmap key content => exact List.forall_mem_cons.mpr ⟨id, hrest⟩
    | functionPreGa payload => exact hrest
    | modulePreGa key payload => exact hrest

theorem FileForm.new_items (f : FileForm) {trailer : Bytes} (hv : 5 ≤ f.header.version)
    (ht : f.TrailerOk trailer) (hfit : ∀ t ∈ f.records, t.Fits) :
    ∃ r s, RdbReader.new (f.body ++ trailer) = .ok r ∧
      Yields RdbReader.next r.withoutChunking (recordItems [] f.records) s := by
  have hpass := recordItems_passes [] hfit
  obtain ⟨s, hy⟩ := f.opened_yields hv ht hpass
  rw [f.body_append]
  rcases f.new_yields hy with ⟨r, hr, hy'⟩ | ⟨e, ht, -, hitems⟩
  · exact ⟨r, s, hr, hy'⟩
  · have hmem : .error e ∈ recordItems [] f.records := by
      rw [hitems]
      exact List.mem_singleton_self _
    exact absurd ht (recordItems_not_terminal _ _ _ hmem)

theorem FileForm.new_entries (f : FileForm) {trailer : Bytes} (hv : 5 ≤ f.header.version)
    (ht : f.TrailerOk trailer) (hs : ∀ t ∈ f.records, t.Supported)
    (hfit : ∀ t ∈ f.records, t.Fits) :
    ∃ r s, RdbReader.new (f.body ++ trailer) = .ok r ∧
      Yields RdbReader.next r.withoutChunking ((entries [] f.records).map .ok) s := by
  rw [← recordItems_supported [] hs]
  exact f.new_items hv ht hfit

/-- A file of supported records within the caps: one entry for each key object, in order,
with the database and the hints that its past says. -/
theorem whole_file_entries (f : FileForm) (trailer : Bytes) (hv : 5 ≤ f.header.version)
    (ht : f.TrailerOk trailer) (hs : ∀ t ∈ f.records, t.Supported)
    (hfit : ∀ t ∈ f.records, t.Fits) :
    ∃ r s, RdbReader.new (f.body ++ trailer) = .ok r ∧
      Yields RdbReader.next r.withoutChunking ((entries [] f.records).map .ok) s :=
  f.new_entries hv ht hs hfit

def selectFile : FileForm where
  headerBytes := magicRedis ++ [48, 49, 49]
  header := ⟨.redis, 11⟩
  header_length := rfl
  header_eq := by decide +kernel
  records := [.opcode (.selectDb (.fourteen 3 (by decide)) (by decide)),
    .opcode (.expireTime 2 (by decide)), .key ⟨.raw .one [107] LenForm.one_value,
      .string (.int8 (-7) (by decide))⟩]

def selectEntry : RdbEntry :=
  keyEntry 3 rdbTypeString (some 2000, none, none) [107] (.string [45, 55]) none none

theorem whole_file_entries_select : ∃ r s,
    RdbReader.new (selectFile.body ++ List.replicate 8 0) = .ok r ∧
      Yields RdbReader.next r.withoutChunking [.ok selectEntry] s :=
  whole_file_entries selectFile (List.replicate 8 0) (by decide)
    ⟨rfl, .inl (by decide)⟩ (by simp [selectFile, Record.Supported]) (by
      simp [selectFile, Record.Fits, Opcode.Fits, KeyForm.Fits, ValueForm.Fits,
        ValueForm.WithinCaps, ValueForm.Near, StringForm.Fits, maxAllocBytes])

/-- A file with one function whose payload is one byte longer than the cap. -/
def bigFunctionFile : FileForm where
  headerBytes := magicRedis ++ [48, 49, 49]
  header := ⟨.redis, 11⟩
  header_length := rfl
  header_eq := by decide +kernel
  records := [.opcode (.function2 (.raw (.thirtyTwo (maxAllocBytes + 1) (by decide))
    (List.replicate (maxAllocBytes + 1) 0) (by rw [List.length_replicate]; rfl)))]

/-! ### Clean ends -/

/-- The items that stand for the entries under a chunk setting. -/
def Delivers (limit : Option ℕ+) (es : List RdbEntry) (items : List (Res RdbEntry)) : Prop :=
  match limit with
  | none => items = es.map .ok
  | some max => ∃ groups, items = groups.flatten ∧
      List.Forall₂ (Rechunked max) (es.map .ok) groups

theorem Rechunked.not_terminal {max : ℕ+} {e : RdbEntry} {group : List (Res RdbEntry)}
    (h : Rechunked max (.ok e) group) : ∀ x ∈ group, ¬Terminal x := by
  cases h with
  | whole hsmall ht ho => exact entries_not_terminal [e]
  | chunks h => exact entries_not_terminal _

theorem Delivers.not_terminal {limit : Option ℕ+} {es : List RdbEntry}
    {items : List (Res RdbEntry)} (h : Delivers limit es items) : ∀ x ∈ items, ¬Terminal x := by
  cases limit with
  | none =>
    cases h
    exact entries_not_terminal es
  | some max =>
    obtain ⟨groups, rfl, hgroups⟩ := h
    induction es generalizing groups with
    | nil =>
      cases hgroups
      intro x hx
      exact absurd hx List.not_mem_nil
    | cons e es ih =>
      cases hgroups with
      | cons hgroup hrest =>
        rw [List.flatten_cons, List.forall_mem_append]
        exact ⟨hgroup.not_terminal, ih _ hrest⟩

/-- Construction succeeds, and iteration delivers the entries and ends without an error. -/
def FileForm.CleanRun (f : FileForm) (trailer : Bytes) (limit : Option ℕ+) : Prop :=
  ∃ r items s, RdbReader.new (f.body ++ trailer) = .ok r ∧
    Yields RdbReader.next (r.configure limit) items s ∧ Delivers limit (entries [] f.records) items

theorem FileForm.not_cleanRun (f : FileForm) {trailer : Bytes} {limit : Option ℕ+}
    {items : List (Res RdbEntry)} {x : Res RdbEntry} (hx : Terminal x) (hmem : x ∈ items)
    (hy : ∃ s, Yields RdbReader.next
      (f.opened limit (recordBytes f.records ++ rdbOpcodeEof :: trailer)) items s) :
    ¬f.CleanRun trailer limit := by
  rintro ⟨r, items', s', hr, hy', hd⟩
  obtain ⟨s, hy⟩ := hy
  rw [f.body_append] at hr
  have hsame := hy.unique (f.yields_of_new hr hy')
  rw [hsame.1] at hmem
  exact hd.not_terminal x hmem hx

theorem whole_file_entries_big_function : 5 ≤ bigFunctionFile.header.version ∧
    bigFunctionFile.TrailerOk (List.replicate 8 0) ∧
    (∀ t ∈ bigFunctionFile.records, t.Supported) ∧
    ¬∃ r s, RdbReader.new (bigFunctionFile.body ++ List.replicate 8 0) = .ok r ∧
      Yields RdbReader.next r.withoutChunking
        ((entries [] bigFunctionFile.records).map .ok) s := by
  refine ⟨by decide, ⟨rfl, .inl (by decide)⟩, by simp [bigFunctionFile, Record.Supported], ?_⟩
  rintro ⟨r, s, hr, hy⟩
  have hfit : ¬∀ t ∈ bigFunctionFile.records, t.Fits := by
    simp [bigFunctionFile, Record.Fits, Opcode.Fits, StringForm.Fits]
  obtain ⟨items, x, hx, hstop⟩ :=
    (recordsWhen bigFunctionFile.records none Context.start).stops hfit
  exact bigFunctionFile.not_cleanRun hx List.mem_concat_self
    (hstop _ _ (bigFunctionFile.opened_at none _)) ⟨r, _, s, hr, hy, rfl⟩

/-- The run is clean for exactly the files within the caps whose version has a trailer. -/
theorem clean_end_iff (f : FileForm) (trailer : Bytes) (limit : Option ℕ+)
    (ht : f.TrailerOk trailer) (hs : ∀ t ∈ f.records, t.Supported) :
    f.CleanRun trailer limit ↔ 5 ≤ f.header.version ∧ ∀ t ∈ f.records, t.Fits := by
  constructor
  · intro hclean
    by_contra hno
    by_cases hfit : ∀ t ∈ f.records, t.Fits
    · have hold : ¬5 ≤ f.header.version := fun hv => hno ⟨hv, hfit⟩
      have htrailer : trailer = [] := by
        unfold FileForm.TrailerOk at ht
        rwa [if_neg hold] at ht
      subst htrailer
      obtain ⟨items, -, hpass⟩ := (recordsWhen f.records limit Context.start).passes hfit
      exact f.not_cleanRun (x := .error eofFault) trivial List.mem_concat_self
        (f.opened_yields_old hpass) hclean
    · obtain ⟨items, x, hx, hstop⟩ := (recordsWhen f.records limit Context.start).stops hfit
      exact f.not_cleanRun hx List.mem_concat_self (hstop _ _ (f.opened_at limit _)) hclean
  · rintro ⟨hv, hfit⟩
    obtain ⟨r, s, hr, hy'⟩ := f.new_entries hv ht hs hfit
    cases limit with
    | none => exact ⟨r, _, s, hr, hy', rfl⟩
    | some max =>
      obtain ⟨groups, hy'', hgroups⟩ := rechunked_yields max hr hy' (entries_not_terminal _)
      exact ⟨r, _, _, hr, hy'', groups, rfl, hgroups⟩

theorem clean_end_iff_select : selectFile.CleanRun (List.replicate 8 0) (some 1) :=
  (clean_end_iff selectFile (List.replicate 8 0) (some 1) ⟨rfl, .inl (by decide)⟩
    (by simp [selectFile, Record.Supported])).mpr ⟨by decide, by
      simp [selectFile, Record.Fits, Opcode.Fits, KeyForm.Fits, ValueForm.Fits,
        ValueForm.WithinCaps, ValueForm.Near, StringForm.Fits, maxAllocBytes]⟩

/-- An empty file of version 4, which has no trailer. -/
def oldFile : FileForm where
  headerBytes := magicRedis ++ [48, 48, 52]
  header := ⟨.redis, 4⟩
  header_length := rfl
  header_eq := by decide +kernel
  records := []

def oldReader : RdbReader :=
  { RdbReader.afterHeader ⟨[], crc64 0 oldFile.body⟩ ⟨.redis, 4⟩ with
    preambleByte := some rdbOpcodeEof }

theorem clean_end_old : oldFile.TrailerOk [] ∧ ∃ s,
    RdbReader.new (oldFile.body ++ []) = .ok oldReader ∧
    Yields RdbReader.next oldReader [.error eofFault] s := by
  have hnew : RdbReader.new (oldFile.body ++ []) = .ok oldReader := by decide +kernel
  have hnext : oldReader.next.1 = some (.error eofFault) := by decide +kernel
  exact ⟨rfl, _, hnew, yields_terminal (Prod.ext hnext rfl) trivial⟩

end ValkeyRdb
