import ValkeyRdb.Cli.Errors
import ValkeyRdb.Cli.ParquetFiles
import ValkeyRdb.Cli.Validate
import ValkeyRdb.Lib.ValidText

/-!
# The validate command (validate.rs, io.rs:119-143)

The Parquet reader is a parameter. On a machine with one directory of readable files the
command comes down to the comparison of `validate`.
-/

namespace ValkeyRdb.Cli

/-- What is read of a Parquet file. The row count is an `i64`; the schema metadata is there
unless `parquet_to_arrow_schema` fails. -/
structure ParquetFooter where
  numRows : Int
  schemaMetadata : Option (SortedMap String String)

structure ValidateSystem (ω F ε : Type) extends System ω where
  fileExists : Bytes → ω → Bool
  readDir : Bytes → ω → Option (List Bytes)
  openFile : Bytes → StateAction ω IoError F
  serializedFileReader : F → StateAction ω ε ParquetFooter

/-- args.rs:119 -/
structure ValidateArgs where
  file : Bytes
  output : Bytes

/-! ### Numbers -/

/-- The loop of `format_num`, from the last digit. -/
def groupDigits : List Char → Nat → List Char
  | [], _ => []
  | c :: cs, i => if 0 < i ∧ i % 3 = 0 then ',' :: c :: groupDigits cs (i + 1) else c :: groupDigits cs (i + 1)

/-- validate.rs:93 -/
def formatNum (n : Nat) : List Char := (groupDigits (Nat.toDigits 10 n).reverse 0).reverse

example : formatNum 1234567 = "1,234,567".toList := by decide +kernel

/-! ### The report -/

/-- A row of the printed table. -/
structure ReportRow where
  tag : TypeTag
  keys : List Char
  rows : List Char
  parquetRows : List Char
  status : Status

/-- validate.rs:140-184 -/
def reportRow (tag : TypeTag) : Option TypeCount → Option Nat → Option ReportRow
  | some tc, some pq => some ⟨tag, formatNum tc.keys, formatNum tc.rows, formatNum pq,
      if tc.rows = pq then .ok else .mismatch⟩
  | some tc, none => some ⟨tag, formatNum tc.keys, formatNum tc.rows, ['-'], .missing⟩
  | none, some pq => some ⟨tag, ['-'], ['-'], formatNum pq, .extra⟩
  | none, none => none

/-- What `validate` prints. -/
structure Report where
  header : RdbHeader
  crcVerified : Bool
  rows : List ReportRow
  hasExportedBy : Bool

namespace Report

def passCount (report : Report) : Nat := report.rows.countP fun row => row.status == .ok

def failCount (report : Report) : Nat := report.rows.countP fun row => row.status != .ok

/-- validate.rs:201-210 -/
def verdict {ε : Type} (report : Report) : Except (CliError ε) Unit :=
  if report.failCount = 0 then .ok ()
  else .error (.validationFailed ("FAIL: " ++ toString report.failCount ++ " of " ++
    toString (report.passCount + report.failCount) ++ " types mismatched"))

end Report

/-! ### The command -/

section Command

variable {ω F ε : Type} (sys : ValidateSystem ω F ε)

/-- The test for shard files (io.rs:131-136). -/
def isShardName (tag : TypeTag) (name : Bytes) : Bool :=
  let nameStr := fromUtf8Lossy name
  (tag.asStr ++ dot).isPrefixOf nameStr && parquetSuffix.isSuffixOf nameStr &&
    nameStr != tag.asStr ++ parquetSuffix

/-- io.rs:120 -/
def findParquetPaths (dir : Bytes) (tag : TypeTag) (w : ω) : List Bytes :=
  let base := joinPath dir (tag.asStr ++ parquetSuffix)
  (if sys.fileExists base w = true then [base] else []) ++
    match sys.readDir dir w with
    | some names => (names.filter (isShardName tag)).map (joinPath dir)
    | none => []

/-- Opening a file by the text of its path, and its footer (validate.rs:28-30, 69-71). -/
def readFooter (path : Bytes) : StateAction ω (Failure ε) ParquetFooter := fun w =>
  match sys.openFile (fromUtf8Lossy path) w with
  | (.error e, w') => (.error (.error (.io (ioContext (fromUtf8Lossy path) e))), w')
  | (.ok file, w') =>
    match sys.serializedFileReader file w' with
    | (.error e, w'') => (.error (.error (.other (.parquet e))), w'')
    | (.ok footer, w'') => (.ok footer, w'')

def negativeRows (n : Int) (path : Bytes) : String :=
  "negative row count " ++ toString n ++ " in " ++ pathText path

/-- The sum over the files of a tag, in a `u64`. -/
def countFiles : List Bytes → Nat → StateAction ω (Failure ε) Nat
  | [], total => fun w => (.ok total, w)
  | path :: paths, total => fun w =>
    match readFooter sys path w with
    | (.error e, w') => (.error e, w')
    | (.ok footer, w') =>
      if footer.numRows < 0 then (.error (.error (.usage (negativeRows footer.numRows path))), w')
      else countFiles paths ((total + footer.numRows.toNat) % 2 ^ 64) w'

/-- The loop over the tags. -/
def countTags (dir : Bytes) : List TypeTag → SortedMap TypeTag Nat →
    StateAction ω (Failure ε) (SortedMap TypeTag Nat)
  | [], counts => fun w => (.ok counts, w)
  | tag :: tags, counts => fun w =>
    if findParquetPaths sys dir tag w = [] then countTags dir tags counts w
    else
      match countFiles sys (findParquetPaths sys dir tag w) 0 w with
      | (.error e, w') => (.error e, w')
      | (.ok total, w') => countTags dir tags (counts.insert tag total) w'

/-- validate.rs:20 -/
def countParquet (dir : Bytes) : StateAction ω (Failure ε) (SortedMap TypeTag Nat) :=
  countTags sys dir TypeTag.all .empty

/-- What the schema metadata says of an export (validate.rs:75-91). -/
def parquetMeta : Option (SortedMap String String) → Except (CliError ε) ParquetMeta
  | some metadata =>
    match metadata.get? rdbHeuristicsKey with
    | some s =>
      match Heuristic.parseSet s with
      | .ok heuristics => .ok ⟨metadata.contains rdbExportedByKey, heuristics⟩
      | .error e => .error (.usage (e ++ " in " ++ rdbHeuristicsKey))
    | none => .ok ⟨metadata.contains rdbExportedByKey, Heuristic.all⟩
  | none => .ok ⟨false, Heuristic.all⟩

/-- validate.rs:48 -/
def readParquetMetadata (dir : Bytes) : StateAction ω (Failure ε) ParquetMeta := fun w =>
  match (TypeTag.all.flatMap fun tag => findParquetPaths sys dir tag w).head? with
  | none => (.ok ⟨false, Heuristic.all⟩, w)
  | some path =>
    match readFooter sys path w with
    | (.error e, w') => (.error e, w')
    | (.ok footer, w') => ((parquetMeta footer.schemaMetadata).mapError .error, w')

/-- validate.rs:12 -/
def countRdb (path : Bytes) (heuristics : Finset Heuristic) :
    StateAction ω (Failure ε) EntrySummary := fun w =>
  match buildRdbReader sys.toSystem path w with
  | (.error e, w') => (.error e, w')
  | (.ok (source, reader), w') =>
    ((summarizeEntries reader heuristics).mapError fun f => .ofFault (source.fault f), w')

/-- The rows of the table: the tags present on either side, in their order. -/
def reportRows (totals : SortedMap TypeTag TypeCount) (counts : SortedMap TypeTag Nat) :
    List ReportRow :=
  (TypeTag.all.filter fun tag => totals.contains tag || counts.contains tag).filterMap fun tag =>
    reportRow tag (totals.get? tag) (counts.get? tag)

/-- validate.rs:105-184 -/
def validateReport (args : ValidateArgs) : StateAction ω (Failure ε) Report := do
  let parquetMeta ← readParquetMetadata sys args.output
  let rdb ← countRdb sys args.file parquetMeta.heuristics
  let counts ← countParquet sys args.output
  pure ⟨rdb.header, rdb.crcVerified, reportRows rdb.totals counts, parquetMeta.hasExportedBy⟩

/-- validate.rs:105 -/
def validateRun (args : ValidateArgs) : StateAction ω (Failure ε) Unit := do
  let report ← validateReport sys args
  StateAction.lift (report.verdict.mapError .error)

end Command

/-! ### A directory that can be read -/

/-- The rows of the files of a tag, if there are any. -/
def directoryRows (d : Directory) (footers : Bytes → ParquetFooter) (tag : TypeTag) : Option Nat :=
  if findParquetFiles d tag = [] then none
  else some (((findParquetFiles d tag).map fun name => (footers name).numRows.toNat).sum % 2 ^ 64)

/-- What `validate` makes of a directory with these footers. -/
def parquetDirOf (d : Directory) (footers : Bytes → ParquetFooter) : ParquetDir where
  rows := directoryRows d footers
  firstFile := (TypeTag.all.flatMap (findParquetFiles d)).head?.map fun name =>
    (footers name).schemaMetadata

/-- In the states of `I` the directory `dir` has the names of `d`, and its Parquet files
can be read by a path that is text. -/
structure ReadsDirectory {ω F ε : Type} (sys : ValidateSystem ω F ε) (dir : Bytes) (d : Directory)
    (footers : Bytes → ParquetFooter) (I : ω → Prop) : Prop where
  readDir : ∀ {w}, I w → sys.readDir dir w = some d.names
  fileExists : ∀ {name w}, I w → 47 ∉ name →
    sys.fileExists (joinPath dir name) w = decide (name ∈ d.names)
  text : ∀ {name tag}, name ∈ d.names → HasForm tag name → Utf8 (joinPath dir name)
  footer : ∀ {name tag w}, I w → name ∈ d.names → HasForm tag name → ∃ file w₁ w₂,
    sys.openFile (joinPath dir name) w = (.ok file, w₁) ∧
    sys.serializedFileReader file w₁ = (.ok (footers name), w₂) ∧ I w₂

section View

variable {ω F ε : Type} {sys : ValidateSystem ω F ε} {dir : Bytes} {d : Directory}
  {footers : Bytes → ParquetFooter} {I : ω → Prop}

theorem findParquetPaths_eq {w : ω} (hdir : sys.readDir dir w = some d.names)
    (hexists : ∀ {name}, 47 ∉ name → sys.fileExists (joinPath dir name) w = decide (name ∈ d.names))
    (tag : TypeTag) : findParquetPaths sys dir tag w = (findParquetFiles d tag).map (joinPath dir) := by
  have hslash : (47 : UInt8) ∉ tag.asStr ++ parquetSuffix := by cases tag <;> decide
  unfold findParquetPaths findParquetFiles
  simp only [hdir, hexists hslash, List.map_append, decide_eq_true_eq]
  congr 1
  split <;> rfl

theorem readFooter_eq (h : ReadsDirectory sys dir d footers I) {w : ω} (hi : I w) {name : Bytes}
    {tag : TypeTag} (hm : name ∈ findParquetFiles d tag) :
    ∃ w', readFooter sys (joinPath dir name) w = (.ok (footers name), w') ∧ I w' := by
  obtain ⟨hname, hform⟩ := mem_findParquetFiles.mp hm
  obtain ⟨file, w₁, w₂, hopen, hread, hi₂⟩ := h.footer hi hname hform
  refine ⟨w₂, ?_, hi₂⟩
  unfold readFooter
  rw [(h.text hname hform).lossy, hopen]
  simp only [hread]

theorem countFiles_eq (h : ReadsDirectory sys dir d footers I) {tag : TypeTag} {names : List Bytes}
    (hnames : ∀ name ∈ names, name ∈ findParquetFiles d tag)
    (hrows : ∀ name ∈ names, 0 ≤ (footers name).numRows) {total : Nat} (htotal : total < 2 ^ 64)
    {w : ω} (hi : I w) :
    ∃ w', countFiles sys (names.map (joinPath dir)) total w =
      (.ok ((total + (names.map fun name => (footers name).numRows.toNat).sum) % 2 ^ 64), w') ∧ I w' := by
  induction names generalizing total w with
  | nil =>
    refine ⟨w, ?_, hi⟩
    rw [List.map_nil, List.map_nil, List.sum_nil, Nat.add_zero, Nat.mod_eq_of_lt htotal]
    rfl
  | cons name names ih =>
    rw [List.forall_mem_cons] at hnames hrows
    obtain ⟨w₁, hread, hi₁⟩ := readFooter_eq h hi hnames.1
    obtain ⟨w₂, hrest, hi₂⟩ := ih hnames.2 hrows.2
      (Nat.mod_lt (total + (footers name).numRows.toNat) (by decide : 0 < 2 ^ 64)) hi₁
    refine ⟨w₂, ?_, hi₂⟩
    have hnonneg : ¬(footers name).numRows < 0 := by omega
    rw [List.map_cons, countFiles]
    simp only [hread, if_neg hnonneg, hrest]
    rw [Nat.mod_add_mod, Nat.add_assoc, List.map_cons, List.sum_cons]

theorem countTags_none {tag : TypeTag} {w : ω} (hnil : findParquetPaths sys dir tag w = [])
    (tags : List TypeTag) (counts : SortedMap TypeTag Nat) :
    countTags sys dir (tag :: tags) counts w = countTags sys dir tags counts w := if_pos hnil

theorem countTags_some {tag : TypeTag} {w w' : ω} {total : Nat}
    (hne : findParquetPaths sys dir tag w ≠ [])
    (hcount : countFiles sys (findParquetPaths sys dir tag w) 0 w = (.ok total, w'))
    (tags : List TypeTag) (counts : SortedMap TypeTag Nat) :
    countTags sys dir (tag :: tags) counts w =
      countTags sys dir tags (counts.insert tag total) w' := by
  refine (if_neg hne).trans ?_
  rw [hcount]

/-- The loop over the tags adds the count of each tag that has files. -/
theorem countTags_eq (h : ReadsDirectory sys dir d footers I)
    (hrows : ∀ tag, ∀ name ∈ findParquetFiles d tag, 0 ≤ (footers name).numRows)
    (tags : List TypeTag) (counts : SortedMap TypeTag Nat) {w : ω} (hi : I w) :
    ∃ counts' w', countTags sys dir tags counts w = (.ok counts', w') ∧ I w' ∧
      ∀ tag, counts'.get? tag =
        if tag ∈ tags then (directoryRows d footers tag).or (counts.get? tag) else counts.get? tag := by
  induction tags generalizing counts w with
  | nil => exact ⟨counts, w, rfl, hi, fun tag => by simp⟩
  | cons t tags ih =>
    have hpaths := findParquetPaths_eq (h.readDir hi) (h.fileExists hi) t
    by_cases hnil : findParquetFiles d t = []
    · obtain ⟨counts', w', hrun, hi', hget⟩ := ih counts hi
      refine ⟨counts', w', ?_, hi', fun tag => ?_⟩
      · rw [countTags_none (by rw [hpaths, hnil]; rfl), hrun]
      · rw [hget]
        by_cases ht : tag = t
        · subst ht
          have hnone : directoryRows d footers tag = none := if_pos hnil
          simp [hnone]
        · simp [ht]
    · obtain ⟨w₁, hcount, hi₁⟩ := countFiles_eq h (fun name hm => hm) (hrows t)
        (by decide : 0 < 2 ^ 64) hi
      rw [Nat.zero_add] at hcount
      obtain ⟨counts', w', hrun, hi', hget⟩ := ih (counts.insert t
        (((findParquetFiles d t).map fun name => (footers name).numRows.toNat).sum % 2 ^ 64)) hi₁
      refine ⟨counts', w', ?_, hi', fun tag => ?_⟩
      · have hne : findParquetPaths sys dir t w ≠ [] := by
          rw [hpaths]
          exact mt List.map_eq_nil_iff.mp hnil
        rw [← hpaths] at hcount
        rw [countTags_some hne hcount, hrun]
      · rw [hget]
        by_cases ht : tag = t
        · subst ht
          have hsome : directoryRows d footers tag = some _ := if_neg hnil
          rw [SortedMap.get?_insert_self, hsome]
          simp
        · rw [SortedMap.get?_insert_of_ne _ _ ht]
          simp [ht]

theorem countParquet_eq (h : ReadsDirectory sys dir d footers I)
    (hrows : ∀ tag, ∀ name ∈ findParquetFiles d tag, 0 ≤ (footers name).numRows) {w : ω} (hi : I w) :
    ∃ counts w', countParquet sys dir w = (.ok counts, w') ∧ I w' ∧
      ∀ tag, counts.get? tag = directoryRows d footers tag := by
  obtain ⟨counts, w', hrun, hi', hget⟩ := countTags_eq h hrows TypeTag.all .empty hi
  refine ⟨counts, w', hrun, hi', fun tag => ?_⟩
  have hempty : (SortedMap.empty : SortedMap TypeTag Nat).get? tag = none := rfl
  rw [hget, if_pos (TypeTag.mem_all tag), hempty, Option.or_none]

end View

/-! ### The command on such a machine -/

/-- An error of the comparison, as the command reports it. -/
def Failure.ofCompare {ε : Type} (source : RdbInput) : CompareError → Failure ε
  | .usage message => .error (.usage message)
  | .rdb f => .ofFault (source.fault f)
  | .validationFailed message => .error (.validationFailed message)

theorem parquetMeta_eq {ε : Type} (metadata : Option (SortedMap String String))
    (rows : TypeTag → Option Nat) :
    (parquetMeta metadata : Except (CliError ε) ParquetMeta) =
      (ValkeyRdb.readParquetMetadata ⟨rows, some metadata⟩).mapError .usage := by
  cases metadata with
  | none => rfl
  | some metadata =>
    simp only [parquetMeta, ValkeyRdb.readParquetMetadata]
    cases hs : metadata.get? rdbHeuristicsKey with
    | none => rfl
    | some s => cases hp : Heuristic.parseSet s <;> simp only [hp] <;> rfl

theorem reportRow_status (tag : TypeTag) (tc : Option TypeCount) (pq : Option Nat) :
    (reportRow tag tc pq).map (fun row => (row.tag, row.status)) = (status tc pq).map (tag, ·) := by
  cases tc <;> cases pq <;> rfl

theorem reportRows_statuses (totals : SortedMap TypeTag TypeCount) {counts : SortedMap TypeTag Nat}
    {rows : TypeTag → Option Nat} (h : ∀ tag, counts.get? tag = rows tag) :
    (reportRows totals counts).map (fun row => (row.tag, row.status)) = statuses totals rows := by
  unfold reportRows statuses
  rw [List.map_filterMap]
  have hfilter : (TypeTag.all.filter fun tag => totals.contains tag || counts.contains tag) =
      TypeTag.all.filter fun tag => totals.contains tag || (rows tag).isSome := by
    apply List.filter_congr
    intro tag _
    unfold SortedMap.contains
    rw [h]
  rw [hfilter]
  apply List.filterMap_congr
  intro tag _
  rw [reportRow_status, h]

theorem verdict_eq {ε : Type} (report : Report) {totals : SortedMap TypeTag TypeCount}
    {rows : TypeTag → Option Nat}
    (h : report.rows.map (fun row => (row.tag, row.status)) = statuses totals rows) :
    (report.verdict : Except (CliError ε) Unit) =
      if (statuses totals rows).countP (fun row => row.2 != .ok) = 0 then .ok ()
      else .error (.validationFailed ("FAIL: " ++
        toString ((statuses totals rows).countP fun row => row.2 != .ok) ++ " of " ++
        toString (statuses totals rows).length ++ " types mismatched")) := by
  have hfail : report.failCount = (statuses totals rows).countP fun row => row.2 != .ok := by
    rw [← h, List.countP_map]
    rfl
  have htotal : report.passCount + report.failCount = (statuses totals rows).length := by
    rw [← h, List.length_map, List.length_eq_countP_add_countP (fun row => row.status == .ok)]
    unfold Report.passCount Report.failCount
    congr 1
    apply List.countP_congr
    intro row _
    simp
  unfold Report.verdict
  rw [htotal, hfail]

section Refines

variable {ω F ε : Type} {sys : ValidateSystem ω F ε} {args : ValidateArgs} {d : Directory}
  {footers : Bytes → ParquetFooter} {I I' : ω → Prop}

theorem head?_map_paths (dir : Bytes) (files : TypeTag → List Bytes) (tags : List TypeTag) :
    (tags.flatMap fun tag => (files tag).map (joinPath dir)).head? =
      (tags.flatMap files).head?.map (joinPath dir) := by
  rw [← List.map_flatMap, List.head?_map]

theorem readParquetMetadata_eq (h : ReadsDirectory sys args.output d footers I) {w : ω} (hi : I w) :
    ∃ w', readParquetMetadata sys args.output w =
      ((ValkeyRdb.readParquetMetadata (parquetDirOf d footers)).mapError (.error ∘ .usage), w') ∧ I w' := by
  have hpaths : (fun tag => findParquetPaths sys args.output tag w) =
      fun tag => (findParquetFiles d tag).map (joinPath args.output) :=
    funext fun tag => findParquetPaths_eq (h.readDir hi) (h.fileExists hi) tag
  have hhead := head?_map_paths args.output (findParquetFiles d) TypeTag.all
  rw [← hpaths] at hhead
  unfold readParquetMetadata
  cases hfirst : (TypeTag.all.flatMap (findParquetFiles d)).head? with
  | none =>
    rw [hfirst] at hhead
    refine ⟨w, ?_, hi⟩
    simp only [hhead, Option.map_none]
    simp [ValkeyRdb.readParquetMetadata, parquetDirOf, hfirst, Except.mapError]
  | some name =>
    obtain ⟨tag, -, hm⟩ := List.mem_flatMap.mp (List.mem_of_head? hfirst)
    obtain ⟨w', hread, hi'⟩ := readFooter_eq h hi hm
    rw [hfirst] at hhead
    refine ⟨w', ?_, hi'⟩
    simp only [hhead, Option.map_some, hread]
    rw [parquetMeta_eq _ (directoryRows d footers)]
    have hdir : parquetDirOf d footers =
        ⟨directoryRows d footers, some (footers name).schemaMetadata⟩ := by
      unfold parquetDirOf
      rw [hfirst]
      rfl
    rw [hdir]
    cases ValkeyRdb.readParquetMetadata _ <;> rfl

theorem countRdb_eq {path : Bytes} {source : RdbInput} {w w' : ω} (heuristics : Finset Heuristic)
    (hopen : openRdbInput sys.toSystem path w = (.ok source, w')) :
    countRdb sys path heuristics w =
      ((ValkeyRdb.countRdb source.bytes heuristics).mapError (.ofCompare source), w') := by
  unfold countRdb buildRdbReader ValkeyRdb.countRdb
  rw [hopen]
  cases hnew : RdbReader.new source.bytes with
  | error f => simp only [hnew]; rfl
  | ok reader =>
    simp only [hnew]
    cases summarizeEntries reader heuristics <;> rfl

/-- On a machine whose directory can be read, the command is `validate` on what the
footers say. -/
theorem validateRun_eq (h : ReadsDirectory sys args.output d footers I)
    (h' : ReadsDirectory sys args.output d footers I')
    (hrows : ∀ tag, ∀ name ∈ findParquetFiles d tag, 0 ≤ (footers name).numRows) {source : RdbInput}
    (hinput : ∀ w, I w → ∃ w', openRdbInput sys.toSystem args.file w = (.ok source, w') ∧ I' w')
    {w : ω} (hi : I w) :
    (validateRun sys args w).1 =
      (validate source.bytes (parquetDirOf d footers)).mapError (.ofCompare source) := by
  obtain ⟨w₁, hmeta, hi₁⟩ := readParquetMetadata_eq h hi
  obtain ⟨w₂, hopen, hi₂⟩ := hinput w₁ hi₁
  have hfailed : ∀ {e w'}, validateReport sys args w = (.error e, w') →
      (validateRun sys args w).1 = .error e := by
    intro e w' hx
    have hrun : validateRun sys args w = (.error e, w') := StateAction.run_bind_error hx
    rw [hrun]
  unfold validate
  cases hm : ValkeyRdb.readParquetMetadata (parquetDirOf d footers) with
  | error e =>
    rw [hm] at hmeta
    exact hfailed (StateAction.run_bind_error hmeta)
  | ok m =>
    rw [hm] at hmeta
    have hcount := countRdb_eq m.heuristics hopen
    dsimp only
    cases hr : ValkeyRdb.countRdb source.bytes m.heuristics with
    | error e =>
      rw [hr] at hcount
      exact hfailed ((StateAction.run_bind_ok hmeta).trans (StateAction.run_bind_error hcount))
    | ok rdb =>
      rw [hr] at hcount
      obtain ⟨counts, w₃, hparquet, -, hget⟩ := countParquet_eq h' hrows hi₂
      have hreport : validateReport sys args w =
          (.ok ⟨rdb.header, rdb.crcVerified, reportRows rdb.totals counts, m.hasExportedBy⟩, w₃) :=
        (StateAction.run_bind_ok hmeta).trans ((StateAction.run_bind_ok hcount).trans
          (StateAction.run_bind_ok hparquet))
      have hrun : validateRun sys args w = (_, w₃) := StateAction.run_bind_ok hreport
      have hstatuses := reportRows_statuses rdb.totals hget
      rw [hrun, verdict_eq _ hstatuses]
      change _ = Except.mapError (Failure.ofCompare source) (if (statuses rdb.totals (directoryRows d footers)).countP
        (fun row => row.2 != .ok) = 0 then _ else _)
      split <;> rfl

end Refines

end ValkeyRdb.Cli
