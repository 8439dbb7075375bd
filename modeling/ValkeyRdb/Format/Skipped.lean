import ValkeyRdb.Format.WholeFile

/-!
# Skipped records

Records that the reader skips leave no trace in what it yields, and an object of a type it
skips leaves one error. Both are said of two files that differ in the inserted records.
-/

namespace ValkeyRdb

/-- What a consumer of a file sees: the items, or the error of the construction. -/
def readFile (limit : Option ℕ+) (input : Bytes) : List (Res RdbEntry) :=
  match RdbReader.new input with
  | .error f => [.error f]
  | .ok r => (r.configure limit).items.1

namespace HeaderForm

/-- The file of the records with a trailer of zeros. -/
def file (h : HeaderForm) (records : List Record) : Bytes :=
  h.headerBytes ++ (recordBytes records ++ rdbOpcodeEof :: List.replicate 8 0)

theorem readFile_eq (h : HeaderForm) {limit : Option ℕ+} {rest : Bytes}
    {items : List (Res RdbEntry)} {s : RdbReader}
    (hy : Yields RdbReader.next (h.opened limit rest) items s) :
    readFile limit (h.headerBytes ++ rest) = items := by
  unfold readFile
  rcases h.new_yields hy with ⟨r, hr, hy'⟩ | ⟨e, -, he, hitems⟩
  · rw [hr]
    have hitems := ((Reachable.new hr).configure limit).yields
    exact (hitems.unique hy').1
  · rw [he, hitems]

end HeaderForm

/-- In front of the records and the end of the file the reader yields `items`. -/
def Ends (limit : Option ℕ+) (c : Context) (records : List Record)
    (items : List (Res RdbEntry)) : Prop :=
  ∀ r, r.At c limit (recordBytes records ++ rdbOpcodeEof :: List.replicate 8 0) →
    ∃ s, Yields RdbReader.next r items s

theorem Ends.readFile {limit : Option ℕ+} {records : List Record}
    {items : List (Res RdbEntry)} (h : Ends limit Context.start records items) (f : HeaderForm) :
    readFile limit (f.file records) = items := by
  obtain ⟨s, hy⟩ := h _ (f.opened_at limit _)
  exact f.readFile_eq hy

theorem recordBytes_append (ts ts' : List Record) :
    recordBytes (ts ++ ts') = recordBytes ts ++ recordBytes ts' := List.flatMap_append

theorem Passes.ends {limit : Option ℕ+} {c c' : Context} {ts ts' : List Record}
    {group items : List (Res RdbEntry)} (h : Passes limit c (recordBytes ts) group c')
    (h' : Ends limit c' ts' items) : Ends limit c (ts ++ ts') (group ++ items) := by
  intro r hr
  rw [recordBytes_append, List.append_assoc] at hr
  obtain ⟨r', hr', -, -, hy⟩ := h r _ hr
  obtain ⟨s, hs⟩ := h' r' hr'
  exact ⟨s, hy _ _ hs⟩

theorem Stops.ends {limit : Option ℕ+} {c : Context} {ts : List Record}
    {items : List (Res RdbEntry)} (h : Stops limit c (recordBytes ts) items) (ts' : List Record) :
    Ends limit c (ts ++ ts') items := by
  intro r hr
  rw [recordBytes_append, List.append_assoc] at hr
  exact h r _ hr

theorem ends_nil (limit : Option ℕ+) (c : Context) : Ends limit c [] [] := by
  intro r hr
  obtain ⟨s, hs⟩ := eof_clean (t := List.replicate 8 0) [] hr rfl (.inl (by decide))
  exact ⟨s, Yields.nil hs⟩

/-- What is yielded in front of some records depends on them and the context only. -/
theorem exists_ends (limit : Option ℕ+) (c : Context) (ts : List Record) :
    ∃ items, Ends limit c ts items := by
  by_cases hfit : ∀ t ∈ ts, t.Fits
  · obtain ⟨group, -, hpass⟩ := (recordsWhen ts limit c).passes hfit
    have hends := hpass.ends (ends_nil limit _)
    rw [List.append_nil] at hends
    exact ⟨_, hends⟩
  · obtain ⟨items, x, -, hstop⟩ := (recordsWhen ts limit c).stops hfit
    have hends := hstop.ends []
    rw [List.append_nil] at hends
    exact ⟨_, hends⟩

/-! ### Records without a trace -/

/-- The records that the reader reads over. -/
def Record.Skipped : Record → Prop
  | .opcode (.aux _ _ _) => True
  | .opcode (.resizeDb _ _) => True
  | .opcode (.slotInfo _ _ _) => True
  | .opcode (.slotImport _ _) => True
  | .opcode (.function2 _) => True
  | .opcode (.moduleAux _ _ _ _) => True
  | _ => False

theorem Record.Skipped.passes {t : Record} (h : t.Skipped) (hfit : t.Fits) (limit : Option ℕ+)
    (c : Context) : Passes limit c t.bytes [] c := by
  cases t with
  | opcode o =>
    have hnext : o.next c = c := by
      cases o <;> first | rfl | exact h.elim
    have hpass := o.passes hfit limit c
    rwa [hnext] at hpass
  | key k => exact h.elim
  | zipmap name content => exact h.elim
  | functionPreGa payload => exact h.elim
  | modulePreGa name payload => exact h.elim

theorem skipped_passes {skipped : List Record} (h : ∀ t ∈ skipped, t.Skipped ∧ t.Fits)
    (limit : Option ℕ+) (c : Context) : Passes limit c (recordBytes skipped) [] c := by
  induction skipped with
  | nil => exact Passes.nil limit c
  | cons t ts ih =>
    rw [List.forall_mem_cons] at h
    rw [recordBytes_cons]
    exact (h.1.1.passes h.1.2 limit c).trans (ih h.2)

/-! ### The object that is skipped -/

/-- The records that say something about the next key. -/
def Record.IsHint : Record → Prop
  | .opcode (.expireTimeMs _ _) => True
  | .opcode (.expireTime _ _) => True
  | .opcode (.idle _) => True
  | .opcode (.freq _) => True
  | _ => False

theorem Record.IsHint.passes {t : Record} (h : t.IsHint) (limit : Option ℕ+) (c : Context) :
    ∃ c' : Context, c'.db = c.db ∧ Passes limit c t.bytes [] c' := by
  cases t with
  | opcode o =>
    have hfit : o.Fits := by
      cases o <;> trivial
    have hdb : (o.next c).db = c.db := by
      cases o <;> first | rfl | exact h.elim
    exact ⟨_, hdb, o.passes hfit limit c⟩
  | key k => exact h.elim
  | zipmap name content => exact h.elim
  | functionPreGa payload => exact h.elim
  | modulePreGa name payload => exact h.elim

theorem hints_pass {hints : List Record} (h : ∀ t ∈ hints, t.IsHint) (limit : Option ℕ+)
    (c : Context) : ∃ c' : Context, c'.db = c.db ∧ Passes limit c (recordBytes hints) [] c' := by
  induction hints generalizing c with
  | nil => exact ⟨c, rfl, Passes.nil limit c⟩
  | cons t ts ih =>
    rw [List.forall_mem_cons] at h
    rw [recordBytes_cons]
    obtain ⟨c₁, hdb₁, hpass₁⟩ := h.1.passes limit c
    obtain ⟨c₂, hdb₂, hpass₂⟩ := ih h.2 c₁
    exact ⟨c₂, hdb₂.trans hdb₁, hpass₁.trans hpass₂⟩

theorem zipmap_object_passes {hints : List Record} (h : ∀ t ∈ hints, t.IsHint)
    {name content : StringForm} (hname : name.Fits) (hcontent : content.Fits)
    (limit : Option ℕ+) {c : Context} (hc : c.pending = (none, none, none)) :
    Passes limit c (recordBytes (hints ++ [.zipmap name content])) [.error zipmapFault] c := by
  obtain ⟨c', hdb, hpass⟩ := hints_pass h limit c
  have hkeyed : c'.keyed = c := by
    cases c
    cases hc
    cases hdb
    rfl
  have hzip := zipmap_passes hname hcontent limit c'
  rw [hkeyed] at hzip
  have hone : recordBytes [.zipmap name content] = (Record.zipmap name content).bytes :=
    List.append_nil _
  rw [recordBytes_append, hone]
  exact hpass.trans hzip

/-- The context behind some records is what they say as the past of the next one. -/
theorem contextAfter_past (past ts : List Record) :
    contextAfter (pastContext past) ts = pastContext (ts.reverse ++ past) := by
  induction ts generalizing past with
  | nil => rfl
  | cons t ts ih =>
    have hcons := ih (t :: past)
    rw [pastContext_cons] at hcons
    rw [List.reverse_cons, List.append_assoc]
    exact hcons

/-- Records that the reader skips, inserted anywhere, change nothing in what a file yields;
a skipped object with its hints, inserted where no hint is pending, adds its one error. -/
theorem skipped_records_invisible (h : HeaderForm) (limit : Option ℕ+)
    (pre post : List Record) :
    (∀ skipped : List Record, (∀ t ∈ skipped, t.Skipped ∧ t.Fits) →
      readFile limit (h.file (pre ++ (skipped ++ post))) = readFile limit (h.file (pre ++ post))) ∧
    ((∀ t ∈ pre, t.Fits) → (pastContext pre.reverse).pending = (none, none, none) →
      ∀ (hints : List Record) (name content : StringForm), (∀ t ∈ hints, t.IsHint) →
        name.Fits → content.Fits → ∃ after,
          readFile limit (h.file (pre ++ post)) = readFile limit (h.file pre) ++ after ∧
          readFile limit (h.file (pre ++ (hints ++ [.zipmap name content] ++ post))) =
            readFile limit (h.file pre) ++ .error zipmapFault :: after) := by
  have hwhen := recordsWhen pre limit Context.start
  constructor
  · intro skipped hskip
    obtain ⟨items, hitems⟩ := exists_ends limit (contextAfter Context.start pre) post
    by_cases hfit : ∀ t ∈ pre, t.Fits
    · obtain ⟨group, -, hpass⟩ := hwhen.passes hfit
      have hinserted := (skipped_passes hskip limit _).ends hitems
      rw [(hpass.ends hitems).readFile h, (hpass.ends hinserted).readFile h]
      rfl
    · obtain ⟨stopped, x, -, hstop⟩ := hwhen.stops hfit
      rw [(hstop.ends _).readFile h, (hstop.ends _).readFile h]
  · intro hfit hpending hints name content hhints hname hcontent
    obtain ⟨before, -, hpass⟩ := hwhen.passes hfit
    have hc : (contextAfter Context.start pre).pending = (none, none, none) := by
      have hpast := contextAfter_past [] pre
      rw [List.append_nil] at hpast
      exact (congrArg Context.pending hpast).trans hpending
    obtain ⟨after, hafter⟩ := exists_ends limit (contextAfter Context.start pre) post
    have hzip := (zipmap_object_passes hhints hname hcontent limit hc).ends hafter
    have hpre := hpass.ends (ends_nil limit _)
    rw [List.append_nil, List.append_nil] at hpre
    refine ⟨after, ?_, ?_⟩
    · rw [hpre.readFile h, (hpass.ends hafter).readFile h]
    · rw [hpre.readFile h, (hpass.ends hzip).readFile h]
      rfl

/-- A function over the cap is not skipped: the reader stops in it. -/
theorem skipped_records_invisible_big_function :
    (∀ t ∈ bigFunctionFile.records, t.Skipped) ∧
    readFile none (selectFile.file (bigFunctionFile.records ++ selectFile.records)) ≠
      readFile none (selectFile.file selectFile.records) := by
  refine ⟨by simp [bigFunctionFile, Record.Skipped], fun hsame => ?_⟩
  have hbig : ¬∀ t ∈ bigFunctionFile.records, t.Fits := by
    simp [bigFunctionFile, Record.Fits, Opcode.Fits, StringForm.Fits]
  have hselect : ∀ t ∈ selectFile.records, t.Supported ∧ t.Fits := by
    simp [selectFile, Record.Supported, Record.Fits, Opcode.Fits, KeyForm.Fits, ValueForm.Fits,
      ValueForm.WithinCaps, ValueForm.Near, StringForm.Fits, maxAllocBytes]
  obtain ⟨items, x, hx, hstop⟩ := (recordsWhen _ none Context.start).stops hbig
  have hpass := entries_passes [] (fun t ht => (hselect t ht).1)
    fun t ht => (hselect t ht).2
  have hends := hpass.ends (ends_nil none _)
  rw [List.append_nil, List.append_nil] at hends
  rw [(hstop.ends _).readFile selectFile.toHeaderForm,
    hends.readFile selectFile.toHeaderForm] at hsame
  have hmem : x ∈ items ++ [x] := List.mem_concat_self
  rw [hsame] at hmem
  exact entries_not_terminal _ x hmem hx

end ValkeyRdb
