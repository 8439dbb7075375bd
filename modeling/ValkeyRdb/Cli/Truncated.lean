import ValkeyRdb.Cli.ExportFiles

/-!
# Exports of a file that is cut off (export.rs:18-158)

The first bytes of a file that reads to its end are a file of their own, with the items of
the first up to where they stop. An export of them does not pass for one of the whole file,
and no file it leaves holds what the export of the whole file would not have written first.
-/

namespace ValkeyRdb

/-! ### The items of a file that is cut off -/

section Items

variable {p : Bytes} {r : RdbReader}

theorem new_longer (h : RdbReader.new p = .ok r) (q : Bytes) :
    RdbReader.new (p ++ q) = .ok (r.append q) := by
  have hne : RdbReader.new p ≠ .error eofFault := by
    rw [h]
    exact nofun
  rw [new_append p q hne, h]
  rfl

/-- With bytes behind them the items are the same, unless the file ends too early. -/
theorem items_longer (h : RdbReader.new p = .ok r) (q : Bytes) (limit : Option ℕ+)
    (hno : .error eofFault ∉ (r.configure limit).items.1) :
    ((r.append q).configure limit).items.1 = (r.configure limit).items.1 := by
  have hy := ((Reachable.new h).configure limit).yields
  have hlong := yields_append q hy hno
  rw [← configure_append] at hlong
  exact (((Reachable.new (new_longer h q)).configure limit).yields.unique hlong).1

theorem items_cut (h : RdbReader.new p = .ok r) (q : Bytes) (limit : Option ℕ+)
    {pre post : List (Res RdbEntry)} (he : (r.configure limit).items.1 = pre ++ .error eofFault :: post) :
    pre <+: ((r.append q).configure limit).items.1 := by
  obtain ⟨m, hsteps, -⟩ := ((Reachable.new h).configure limit).yields
  obtain ⟨m', hm'⟩ := steps_append q hsteps he
  rw [← configure_append] at hm'
  exact hm'.isPrefix ((Reachable.new (new_longer h q)).configure limit).yields

end Items

/-! ### The batches of a file that is cut off -/

section Batches

variable {ε : Type} (tryNew : TryNew ε)

/-- What an export yields up to some point of its input, and up to a fault behind it. -/
theorem exported_append (globMatch : Bytes → Bytes → Bool) (filter : EntryFilter)
    (config : BatcherConfig) (pre : List (Res RdbEntry)) : ∃ out,
    (∀ post, out <+: exported tryNew globMatch filter config (pre ++ post)) ∧
    ∀ f post, isUnknownType (.error f) = false →
      out ++ [.error (.fault f)] <+: exported tryNew globMatch filter config (pre ++ .error f :: post) := by
  rcases hout : fed tryNew (pre.filter (filter.keeps globMatch)) (ArrowBatcher.new config) with ⟨out, b'⟩
  have hfeed : ∀ post, (feed tryNew ((pre ++ post).filter (filter.keeps globMatch))
      (ArrowBatcher.new config)).1 = out ++ (feed tryNew (post.filter (filter.keeps globMatch)) b').1 := by
    intro post
    rw [List.filter_append, feed_append, hout]
  have hfault : ∀ f post, isUnknownType (.error f) = false →
      (feed tryNew (((.error f : Res RdbEntry) :: post).filter (filter.keeps globMatch)) b').1 =
        .error (.fault f) :: (feed tryNew (post.filter (filter.keeps globMatch)) b').1 := by
    intro f post hu
    have hkeep : filter.keeps globMatch (.error f) = true := rfl
    rw [List.filter_cons_of_pos hkeep, feed_fault tryNew hu]
  unfold exported
  cases filter.typeTags with
  | none =>
    refine ⟨out, fun post => ?_, fun f post hu => ?_⟩
    · dsimp only
      rw [hfeed]
      exact List.prefix_append _ _
    · dsimp only
      rw [hfeed, hfault f post hu]
      exact ⟨_, by rw [List.append_assoc]; rfl⟩
  | some tags =>
    refine ⟨out.filter (keepsBatch tags), fun post => ?_, fun f post hu => ?_⟩
    · dsimp only
      rw [hfeed, List.filter_append]
      exact List.prefix_append _ _
    · have hkeep : keepsBatch (ε := ε) tags (.error (.fault f)) = true := rfl
      dsimp only
      rw [hfeed, hfault f post hu, List.filter_append, List.filter_cons_of_pos hkeep]
      exact ⟨_, by rw [List.append_assoc]; rfl⟩

end Batches

namespace Cli

section Pulled

variable {ε : Type} {tryNew : TryNew ε} {globMatch : Bytes → Bytes → Bool} {p q : Bytes} {r : RdbReader}

theorem readerItems_configure {input : Bytes} {r : RdbReader} (hnew : RdbReader.new input = .ok r)
    (args : ValkeyRdb.ExportArgs) : readerItems args r = (r.configure args.limit).items.1 := by
  unfold readerItems
  rw [args_reader hnew]

/-- A file that does not end too early is read like any longer one. -/
theorem readerItems_longer (h : RdbReader.new p = .ok r) (q : Bytes) (args : ValkeyRdb.ExportArgs)
    (hno : .error eofFault ∉ readerItems args r) :
    readerItems args (r.append q) = readerItems args r := by
  rw [readerItems_configure h] at hno ⊢
  rw [readerItems_configure (new_longer h q)]
  exact items_longer h q args.limit hno

/-- The items of a file that ends too early come first in any longer one. -/
theorem readerItems_cut (h : RdbReader.new p = .ok r) (q : Bytes) (args : ValkeyRdb.ExportArgs)
    (heof : .error eofFault ∈ readerItems args r) :
    ∃ pre, readerItems args r = pre ++ [.error eofFault] ∧ pre <+: readerItems args (r.append q) := by
  obtain ⟨pre, post, he⟩ := List.append_of_mem heof
  have hnone : post = [] := by
    cases post with
    | nil => rfl
    | cons y post =>
      have hlast : faultsOf (readerItems args r).dropLast = [] :=
        reader_faultsLast (args_reader_reachable (Reachable.new h) args)
      have hmem : eofFault ∈ faultsOf (readerItems args r).dropLast := by
        refine mem_faultsOf.mpr ⟨?_, trivial⟩
        rw [he, List.dropLast_append_of_ne_nil (List.cons_ne_nil _ _), List.dropLast_cons_cons]
        exact List.mem_append_right _ List.mem_cons_self
      rw [hlast] at hmem
      cases hmem
  subst hnone
  refine ⟨pre, he, ?_⟩
  rw [readerItems_configure h] at he
  rw [readerItems_configure (new_longer h q)]
  exact items_cut h q args.limit he

/-- What an export is handed of a file comes first for any longer one. -/
theorem handed_longer (tryNew : TryNew ε) (globMatch : Bytes → Bytes → Bool)
    (h : RdbReader.new p = .ok r) (q : Bytes) (args : ValkeyRdb.ExportArgs) :
    handed tryNew globMatch args r <+: handed tryNew globMatch args (r.append q) := by
  by_cases heof : .error eofFault ∈ readerItems args r
  · obtain ⟨pre, he, later, hlater⟩ := readerItems_cut h q args heof
    obtain ⟨out, hout, hfault⟩ := exported_append tryNew globMatch args.filter args.config pre
    have hcut := hfault eofFault [] rfl
    obtain ⟨rest, hlong⟩ := hout later
    unfold handed
    rw [he, untilError_of_isPrefix hcut, ← hlater, ← hlong]
    exact untilError_append_leading _ _
  · unfold handed
    rw [readerItems_longer h q args heof]

/-- The entries of a file that is cut off are the first of the file. -/
theorem keptEntries_longer (globMatch : Bytes → Bytes → Bool) (h : RdbReader.new p = .ok r) (q : Bytes)
    (args : ValkeyRdb.ExportArgs) :
    keptEntries globMatch args r <+: keptEntries globMatch args (r.append q) := by
  unfold keptEntries
  refine List.IsPrefix.filter _ ?_
  by_cases heof : .error eofFault ∈ readerItems args r
  · obtain ⟨pre, he, later, hlater⟩ := readerItems_cut h q args heof
    rw [he, ← hlater]
    unfold entriesOf
    rw [List.filterMap_append, List.filterMap_append]
    exact (List.prefix_append_right_inj _).mpr List.nil_prefix
  · rw [readerItems_longer h q args heof]

/-- The first bytes of a file that reads to its end read to their end, or end too early. -/
theorem cut_cases (hr : ReadsThrough (p ++ q)) :
    (RdbReader.new p = .error eofFault ∧ ¬ReadsThrough p) ∨
    ∃ r, RdbReader.new p = .ok r ∧ RdbReader.new (p ++ q) = .ok (r.append q) ∧
      ∀ args : ValkeyRdb.ExportArgs, ReadsThrough p ↔ .error eofFault ∉ readerItems args r := by
  obtain ⟨whole, hwhole, hclean⟩ := hr
  cases hnew : RdbReader.new p with
  | error f =>
    refine .inl ⟨?_, ?_⟩
    · by_contra hne
      rw [new_append p q (by rw [hnew]; exact hne), hnew] at hwhole
      cases hwhole
    · rintro ⟨r, h, -⟩
      rw [hnew] at h
      cases h
  | ok r =>
    have hlong := new_longer hnew q
    refine .inr ⟨r, rfl, hlong, fun args => ⟨?_, fun hno => ⟨r, hnew, ?_⟩⟩⟩
    · rintro ⟨r', h, hr⟩ hm
      rw [hnew] at h
      cases h
      have hfault : eofFault ∈ faultsOf (readerItems args r) := mem_faultsOf.mpr ⟨hm, trivial⟩
      rw [(readable_iff_clean hnew args).mpr hr] at hfault
      cases hfault
    · rw [hlong] at hwhole
      cases hwhole
      apply (readable_iff_clean hnew args).mp
      have hread := (readable_iff_clean hlong args).mpr hclean
      rw [readerItems_configure hlong] at hread
      rw [readerItems_configure hnew] at hno ⊢
      rw [items_longer hnew q args.limit hno] at hread
      exact hread

end Pulled

/-! ### The export of a file that is cut off -/

section Run

variable {ω W R ε : Type}

/-- The first bytes of an input. -/
def RdbInput.truncated (source : RdbInput) (k : Nat) : RdbInput :=
  { source with bytes := source.bytes.take k }

/-- The machine with the first `k` bytes of every input. -/
def ExportSystem.truncated (sys : ExportSystem ω W R ε) (k : Nat) : ExportSystem ω W R ε :=
  { sys with
    stdin := fun w => ((sys.stdin w).1.truncated k, (sys.stdin w).2)
    openInput := fun path w =>
      ((sys.openInput path w).1.map fun source => source.truncated k, (sys.openInput path w).2) }

variable {sys : ExportSystem ω W R ε} {args : ExportArgs}

theorem truncated_opens {path : Bytes} {source : RdbInput} {w w' : ω} (k : Nat)
    (h : openRdbInput sys.toSystem path w = (.ok source, w')) :
    openRdbInput (sys.truncated k).toSystem path w = (.ok (source.truncated k), w') := by
  unfold openRdbInput at h ⊢
  split at h
  · rename_i hdash
    rw [if_pos hdash]
    cases h
    rfl
  · rename_i hdash
    rw [if_neg hdash]
    rcases hfile : sys.openInput path w with ⟨e | file, w₁⟩
    · rw [hfile] at h
      cases h
    · rw [hfile] at h
      cases h
      have hcut : (sys.truncated k).openInput path w = (.ok (source.truncated k), w') := by
        change ((sys.openInput path w).1.map (fun source => source.truncated k),
          (sys.openInput path w).2) = _
        rw [hfile]
        rfl
      rw [hcut]

theorem truncated_succeeds (h : sys.Succeeds) (k : Nat) : (sys.truncated k).Succeeds where
  createDirAll := h.createDirAll
  createFile := h.createFile
  opened := h.opened
  write := h.write
  close := h.close

theorem truncated_stores {dir : Bytes} {files : ω → Files} {raw : Bytes → W → Prop}
    {own : Bytes → R → Prop} (h : sys.Stores dir files raw own) (k : Nat) :
    (sys.truncated k).Stores dir files raw own where
  stdin := h.stdin
  openInput := h.openInput
  createDirAll := h.createDirAll
  created := h.created
  refused := h.refused
  parquet := h.parquet
  arrowIpc := h.arrowIpc
  csv := h.csv
  json := h.json

/-- Both hold once there are rounds enough for each. -/
theorem rounds_and {P Q : Nat → Prop} (hp : ∃ rounds, ∀ n, rounds ≤ n → P n)
    (hq : ∃ rounds, ∀ n, rounds ≤ n → Q n) : ∃ rounds, ∀ n, rounds ≤ n → P n ∧ Q n := by
  obtain ⟨a, ha⟩ := hp
  obtain ⟨b, hb⟩ := hq
  exact ⟨max a b, fun n hn => ⟨ha n (le_trans (le_max_left a b) hn), hb n (le_trans (le_max_right a b) hn)⟩⟩

/-- What an export of the first `k` bytes of its input does, beside the export of all. -/
structure TruncationMeans (sys : ExportSystem ω W R ε) (tryNew : TryNew ε)
    (globMatch : Bytes → Bytes → Bool) (args : ExportArgs) (files : ω → Files) (w : ω) (input : Bytes)
    (k n : Nat) : Prop where
  intact : ReadsThrough (input.take k) → exportRun (sys.truncated k) tryNew globMatch n args w =
    exportRun sys tryNew globMatch n args w
  reported : ¬ReadsThrough (input.take k) → ∃ status ∈ [1, 3, 4, 101],
    exitStatus (exportRun (sys.truncated k) tryNew globMatch n args w).1 = some status ∧
    (sys.Succeeds → (status = 4 ↔ HasRoom globMatch args (input.take k)) ∧
      (status = 101 ↔ ¬HasRoom globMatch args (input.take k)))
  room : HasRoom globMatch args input → HasRoom globMatch args (input.take k)
  left : ¬ReadsThrough (input.take k) → ∃ r typeTags heuristics hid,
    RdbReader.new input = .ok r ∧ args.checked = .ok (typeTags, heuristics) ∧
    ((exportRun sys tryNew globMatch n args w).1 = .ok () → ∀ tag,
      files (exportRun sys tryNew globMatch n args w).2 (args.filename tag) =
        if ∃ t ∈ handed tryNew globMatch (args.pipeline typeTags heuristics) r, t.tag = tag then
          some ((args.exporter hid (metadataFromRdb r.metadata heuristics)).finished tag
            (tagBatches tag (handed tryNew globMatch (args.pipeline typeTags heuristics) r)))
        else files w (args.filename tag)) ∧
    ∀ tag, files (exportRun (sys.truncated k) tryNew globMatch n args w).2 (args.filename tag) =
        files w (args.filename tag) ∨
      ∃ calls, files (exportRun (sys.truncated k) tryNew globMatch n args w).2 (args.filename tag) =
          some (.written calls) ∧
        LeftBehind ((exportRun (sys.truncated k) tryNew globMatch n args w).1 = .error .panic)
          (tagBatches tag (handed tryNew globMatch (args.pipeline typeTags heuristics) r)) calls

variable {tryNew : TryNew ε} {globMatch : Bytes → Bytes → Bool} {files : ω → Files}
  {raw : Bytes → W → Prop} {own : Bytes → R → Prop}

/-- The same bytes for the reader make the same run. -/
theorem truncated_run (tryNew : TryNew ε) (globMatch : Bytes → Bytes → Bool)
    {typeTags : Option (Finset TypeTag)} {heuristics : Finset Heuristic} (hc : args.checked = .ok (typeTags, heuristics)) {w w₁ : ω}
    {source : RdbInput} {k : Nat} {r : RdbReader}
    (hopen : openRdbInput sys.toSystem args.file w = (.ok source, w₁))
    (hp : RdbReader.new (source.bytes.take k) = .ok r)
    (hno : .error eofFault ∉ readerItems (args.pipeline typeTags heuristics) r) :
    ∃ rounds, ∀ n, rounds ≤ n → exportRun (sys.truncated k) tryNew globMatch n args w =
      exportRun sys tryNew globMatch n args w := by
  have hlong := new_longer hp (source.bytes.drop k)
  rw [List.take_append_drop] at hlong
  have hcut := truncated_opens k hopen
  have hp' : RdbReader.new (source.truncated k).bytes = .ok r := hp
  obtain ⟨rounds, hitems⟩ := rounds_and
    (exportItems_eq tryNew globMatch (Reachable.new hp) (args.pipeline typeTags heuristics)
      (source.truncated k))
    (exportItems_eq tryNew globMatch (Reachable.new hlong) (args.pipeline typeTags heuristics) source)
  refine ⟨rounds, fun n hn => ?_⟩
  obtain ⟨hshort, hwhole⟩ := hitems n hn
  have hpulled : pulled tryNew globMatch (args.pipeline typeTags heuristics) source
      (r.append (source.bytes.drop k)) =
        pulled tryNew globMatch (args.pipeline typeTags heuristics) (source.truncated k) r := by
    unfold pulled
    rw [readerItems_longer hp _ _ hno]
    rfl
  rw [hpulled] at hwhole
  have hdir : (sys.truncated k).createDirAll = sys.createDirAll := rfl
  have hcallbacks : ∀ config, exportCallbacks (sys.truncated k) args config =
      exportCallbacks sys args config := fun _ => rfl
  have hmeta : (r.append (source.bytes.drop k)).metadata = r.metadata := rfl
  simp only [exportRun, hc, buildRdbReader, hopen, hcut, hp', hlong, hdir, hcallbacks, hshort, hwhole,
    hmeta]

/-- What the status of an export means for a file that does not read to its end. -/
theorem status_of_cut {k status : Nat} {w w₁ : ω} {source : RdbInput} (haccepted : ¬args.Refused)
    (hopen : openRdbInput sys.toSystem args.file w = (.ok source, w₁))
    (hr : ¬ReadsThrough (source.bytes.take k))
    (h : StatusMeans (sys.truncated k) globMatch args w status) :
    status ∈ [1, 3, 4, 101] ∧
      (sys.Succeeds → (status = 4 ↔ HasRoom globMatch args (source.bytes.take k)) ∧
        (status = 101 ↔ ¬HasRoom globMatch args (source.bytes.take k))) := by
  have ho : Opens (sys.truncated k) args w (source.truncated k) :=
    ⟨haccepted, by rw [truncated_opens k hopen]⟩
  refine ⟨?_, fun hs => ?_⟩
  · have hamong := h.among
    have husage : status ≠ 2 := fun he => haccepted (h.usage.mp he)
    have hdone : status ≠ 0 := by
      intro he
      obtain ⟨source', ho', hr', -⟩ := h.done he
      obtain rfl := ho.unique ho'
      exact hr hr'
    simp only [List.mem_cons, List.not_mem_nil, or_false] at hamong ⊢
    omega
  · obtain ⟨-, hfour, hpanic⟩ := h.opened (truncated_succeeds hs k) _ ho
    exact ⟨hfour.trans (and_iff_right hr), hpanic⟩

/-- The first bytes of a file need no more room than the file. -/
theorem HasRoom.take {input : Bytes} (h : HasRoom globMatch args input) (k : Nat) :
    HasRoom globMatch args (input.take k) := by
  intro typeTags heuristics r hc hnew
  have hlong := new_longer hnew (input.drop k)
  rw [List.take_append_drop] at hlong
  exact (h typeTags heuristics _ hc hlong).of_isPrefix (keptEntries_longer globMatch hnew _ _)

/-- The files of an export that succeeded, by the batches that it was handed. -/
theorem ExportCase.finished (ht : TryNewAccepts tryNew) (h : sys.Stores args.outputDir files raw own)
    {typeTags : Option (Finset TypeTag)} {heuristics : Finset Heuristic}
    (hc : args.checked = .ok (typeTags, heuristics)) {w w₁ : ω} {source : RdbInput} {r : RdbReader}
    (hopen : openRdbInput sys.toSystem args.file w = (.ok source, w₁))
    (hnew : RdbReader.new source.bytes = .ok r) {out : Except (Failure ε) Unit × ω}
    (hcase : ExportCase sys tryNew globMatch args w out) (hok : out.1 = .ok ()) (tag : TypeTag) :
    files out.2 (args.filename tag) =
      if ∃ t ∈ handed tryNew globMatch (args.pipeline typeTags heuristics) r, t.tag = tag then
        some ((args.exporter (shardId_of_checked hc) (metadataFromRdb r.metadata heuristics)).finished tag
          (tagBatches tag (handed tryNew globMatch (args.pipeline typeTags heuristics) r)))
      else files w (args.filename tag) := by
  cases hcase with
  | refused hc' => cases hok
  | unopened hc' hopen' => cases hok
  | unread hc' hopen' hnew' =>
    rw [hopen] at hopen'
    cases hopen'
    rw [hnew] at hnew'
    cases hnew'
  | noDirectory hc' hopen' hnew' hdir => cases hok
  | @ran typeTags' heuristics' source' w₁' r' w₂ compression result w₃ hc' hopen' hnew' hdir hcomp hrun =>
    rw [hc] at hc'
    cases hc'
    rw [hopen] at hopen'
    cases hopen'
    rw [hnew] at hnew'
    cases hnew'
    cases result with
    | error e => cases hok
    | ok u =>
      obtain ⟨ts, hts, hfiles⟩ := files_finished h (shardId_of_checked hc) _ hrun
      obtain ⟨rfl, -, -⟩ := handed_ok ht (Reachable.new hnew) hts
      have hkeep := h.createDirAll w₁
      rw [hdir] at hkeep
      rw [hfiles tag, hkeep, openRdbInput_files h hopen]

/-- The attempts of an export of the first bytes are the first batches of the whole file. -/
theorem cut_attempts {input : Bytes} {k : Nat} {whole r : RdbReader} {pipeline : ValkeyRdb.ExportArgs}
    {source : RdbInput} (hwhole : RdbReader.new input = .ok whole)
    (hnew : RdbReader.new (input.take k) = .ok r) {attempts : List TypedBatch}
    (ha : attempts.map .ok <+: pulled tryNew globMatch pipeline source r) :
    attempts <+: handed tryNew globMatch pipeline whole := by
  have hlong := new_longer hnew (input.drop k)
  rw [List.take_append_drop, hwhole] at hlong
  cases hlong
  have hhanded := untilError_leading ha
  rw [handed_eq] at hhanded
  exact hhanded.trans (handed_longer tryNew globMatch hnew _ _)

/-- Cut off anywhere, a file that reads to its end is exported as before or reported, and
every file of the failed export begins like the one that the whole file gives. -/
theorem truncated_export (ht : TryNewAccepts tryNew) (sys : ExportSystem ω W R ε)
    (globMatch : Bytes → Bytes → Bool) (args : ExportArgs) (haccepted : ¬args.Refused)
    (files : ω → Files) (raw : Bytes → W → Prop) (own : Bytes → R → Prop)
    (h : sys.Stores args.outputDir files raw own) (w : ω) (source : RdbInput)
    (hinput : (openRdbInput sys.toSystem args.file w).1 = .ok source) (hr : ReadsThrough source.bytes)
    (k : Nat) :
    ∃ rounds, ∀ n, rounds ≤ n → TruncationMeans sys tryNew globMatch args files w source.bytes k n := by
  obtain ⟨w₁, hopen⟩ : ∃ w₁, openRdbInput sys.toSystem args.file w = (.ok source, w₁) :=
    ⟨_, Prod.ext hinput rfl⟩
  rcases hc : args.checked with e | ⟨typeTags, heuristics⟩
  · exact absurd ⟨e, hc⟩ haccepted
  obtain ⟨whole, hwhole, hclean⟩ := id hr
  have hsame : ∃ rounds, ∀ n, rounds ≤ n → ReadsThrough (source.bytes.take k) →
      exportRun (sys.truncated k) tryNew globMatch n args w = exportRun sys tryNew globMatch n args w := by
    by_cases hcut : ReadsThrough (source.bytes.take k)
    · rw [← List.take_append_drop k source.bytes] at hr
      rcases cut_cases hr with ⟨-, hno⟩ | ⟨r, hnew, -, hiff⟩
      · exact absurd hcut hno
      · obtain ⟨rounds, hrun⟩ := truncated_run tryNew globMatch hc hopen hnew ((hiff _).mp hcut)
        exact ⟨rounds, fun n hn _ => hrun n hn⟩
    · exact ⟨0, fun n _ hr => absurd hr hcut⟩
  obtain ⟨rounds, hall⟩ := rounds_and hsame (rounds_and
    (exportRun_cases (sys.truncated k) tryNew globMatch args w)
    (exportRun_cases sys tryNew globMatch args w))
  refine ⟨rounds, fun n hn => ?_⟩
  obtain ⟨hintact, hcut, hcase⟩ := hall n hn
  obtain ⟨status, hstatus, hmeans, -⟩ := hcut.status ht
  have hbehind := hcut.behind ht (truncated_stores h k)
  refine ⟨hintact, fun hno => ?_, fun hroom => hroom.take k, fun hno => ⟨whole, typeTags, heuristics, _,
    hwhole, hc, fun hok tag => hcase.finished ht h hc hopen hwhole hok tag, fun tag => ?_⟩⟩
  · obtain ⟨hamong, hends⟩ := status_of_cut haccepted hopen hno hmeans
    exact ⟨status, hamong, hstatus, hends⟩
  · rcases hbehind.left tag with hsame | ⟨source', r, typeTags', heuristics', attempts, calls, hopen', hnew,
      hc', ha, hafter, hleft⟩
    · exact .inl hsame
    · rw [truncated_opens k hopen] at hopen'
      cases hopen'
      rw [hc] at hc'
      cases hc'
      have hleading := cut_attempts hwhole hnew ha
      exact .inr ⟨calls, hafter, hleft.batches.trans (tagBatches_leading tag hleading), hleft.finished,
        hleft.unclosed⟩

end Run

/-- `listFile` without its last elements and its end. -/
theorem truncated_export_list : ∃ rounds, ∀ n, rounds ≤ n →
    exitStatus (exportRun (storeSystem.truncated 15) checkedTryNew (fun _ _ => true) n outArgs
      fun _ => none).1 = some 4 := by
  obtain ⟨hnew, hclean, -⟩ := listReader_clean
  have hcut : ¬ReadsThrough (listFile.take 15) := by
    rintro ⟨r, hr, hall⟩
    have hitems : (RdbReader.new (listFile.take 15)).map (fun r => r.withoutChunking.items.1) =
        .ok [.error eofFault] := by decide +kernel
    rw [hr] at hitems
    have hone : r.withoutChunking.items.1 = [.error eofFault] := Except.ok.inj hitems
    have hmem : .error eofFault ∈ r.withoutChunking.items.1 := by
      rw [hone]
      exact List.mem_singleton_self _
    exact hall _ hmem trivial
  obtain ⟨rounds, h⟩ := truncated_export checkedTryNew_accepts storeSystem (fun _ _ => true) outArgs
    outArgs_opens.1 id (fun name a => a = name) (fun name a => a = name) storeSystem_stores
    (fun _ => none) ⟨listFile, none⟩ rfl ⟨listReader, hnew, hclean⟩ 15
  refine ⟨rounds, fun n hn => ?_⟩
  obtain ⟨status, -, hstatus, hends⟩ := (h n hn).reported hcut
  have hfour := (hends storeSystem_succeeds).1.mpr ((h n hn).room listFile_hasRoom)
  rw [hstatus, hfour]

end Cli

end ValkeyRdb
