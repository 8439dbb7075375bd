import Mathlib.Algebra.BigOperators.Ring.List
import ValkeyRdb.Arrow.Batcher
import ValkeyRdb.Arrow.ColumnBytes

/-!
# The size estimate (batcher.rs:54-90)

What a push accounts is the estimate of its entry and the bytes that the estimate leaves
out: the ids of stream entries, and for a module its name, its opcodes and the two
integers of each row.
-/

namespace ValkeyRdb

def unestimatedBytes (entry : RdbEntry) : Nat :=
  match entry.value with
  | .stream data => (data.entries.map streamIdBytes).sum
  | .module data =>
    if data.values.isEmpty then ModuleBatchBuilder.emptyModuleRowBytes data
    else (data.values.map fun v =>
      data.moduleName.length + 8 + ModuleBatchBuilder.moduleOpcodeBytes v).sum
  | _ => 0

/-! ### Sums over the appends -/

/-- The accounted bytes of some appends under a key. -/
def accountedBytes (keyLen : Nat) (appends : List RowAppend) : Nat :=
  (appends.map fun a => keyLen + a.bytes).sum

theorem accounted_eq_accountedBytes (tag : TypeTag) (entry : RdbEntry) :
    tag.accounted entry = accountedBytes entry.key.length (tag.appends entry) := rfl

theorem sum_map_const_add {α : Type} (c : Nat) (f : α → Nat) (xs : List α) :
    (xs.map fun x => c + f x).sum = c * xs.length + (xs.map f).sum := by
  rw [List.sum_map_add, List.map_const', List.sum_replicate_nat, Nat.mul_comm]

theorem accountedBytes_collection {α : Type} (keyLen : Nat) (typeStr : String) (n width : Nat)
    (bytes : α → Nat) (cells : α → List Cell) (xs : List α) :
    accountedBytes keyLen (collectionAppends typeStr n width bytes cells xs) =
      collectionBytes keyLen xs bytes := by
  unfold collectionAppends collectionBytes accountedBytes
  cases xs with
  | nil => simp
  | cons x xs =>
    have hmax : max (x :: xs).length 1 = (x :: xs).length := max_eq_left (Nat.succ_pos _)
    rw [hmax, if_neg (by simp), List.map_map]
    exact sum_map_const_add keyLen bytes (x :: xs)

theorem accountedBytes_streamEntry (keyLen n : Nat) (e : StreamEntry) :
    accountedBytes keyLen (streamEntryAppends n e) =
      keyLen * max e.fields.length 1 + (e.fields.map fun fv => fv.1.length + fv.2.length).sum +
        streamIdBytes e := by
  unfold streamEntryAppends streamIdBytes accountedBytes
  cases e.fields with
  | nil => simp
  | cons fv fvs =>
    have hmax : max (fv :: fvs).length 1 = (fv :: fvs).length := max_eq_left (Nat.succ_pos _)
    rw [hmax, if_neg (by simp), List.map_map]
    have hrow : ∀ x ∈ fv :: fvs,
        ((fun a : RowAppend => keyLen + a.bytes) ∘ fun fv : Bytes × Bytes =>
          ⟨n, "stream", e.id.utf8ByteSize + fv.1.length + fv.2.length,
            [.utf8 e.id, .binary fv.1, .binary fv.2]⟩) x =
        (keyLen + e.id.utf8ByteSize) + (x.1.length + x.2.length) := by
      intro x _
      simp only [Function.comp_apply]
      omega
    rw [List.map_congr_left hrow, sum_map_const_add, Nat.add_mul,
      Nat.mul_comm e.id.utf8ByteSize]
    omega

theorem accountedBytes_stream (keyLen : Nat) (data : StreamData) :
    accountedBytes keyLen (streamAppends data) =
      keyLen * max (data.entries.map fun e => max e.fields.length 1).sum 1 +
        (data.entries.map fun e => (e.fields.map fun fv => fv.1.length + fv.2.length).sum).sum +
        (data.entries.map streamIdBytes).sum := by
  unfold streamAppends
  generalize (if 0 < data.length then data.length else data.entries.length) = n
  cases data.entries with
  | nil => simp [accountedBytes]
  | cons e es =>
    have hpos : 1 ≤ ((e :: es).map fun e => max e.fields.length 1).sum := by
      rw [List.map_cons, List.sum_cons]
      have hone : 1 ≤ max e.fields.length 1 := le_max_right _ _
      omega
    rw [max_eq_left hpos, if_neg (by simp)]
    have hsum : ∀ xs : List StreamEntry,
        accountedBytes keyLen (xs.flatMap (streamEntryAppends n)) =
          keyLen * (xs.map fun e => max e.fields.length 1).sum +
            (xs.map fun e => (e.fields.map fun fv => fv.1.length + fv.2.length).sum).sum +
            (xs.map streamIdBytes).sum := by
      intro xs
      induction xs with
      | nil => rfl
      | cons x xs ih =>
        have hx := accountedBytes_streamEntry keyLen n x
        unfold accountedBytes at hx ih ⊢
        rw [List.flatMap_cons, List.map_append, List.sum_append, hx, ih]
        simp only [List.map_cons, List.sum_cons, Nat.mul_add]
        omega
    exact hsum (e :: es)

theorem accountedBytes_module (entry : RdbEntry) (data : ModuleData) :
    accountedBytes entry.key.length (moduleAppends entry data) =
      collectionBytes entry.key.length data.values ModuleBatchBuilder.moduleValueBytes +
        if data.values.isEmpty then ModuleBatchBuilder.emptyModuleRowBytes data
        else (data.values.map fun v =>
          data.moduleName.length + 8 + ModuleBatchBuilder.moduleOpcodeBytes v).sum := by
  unfold moduleAppends collectionBytes accountedBytes
  generalize entry.totalElements.getD data.values.length = n
  cases data.values with
  | nil => simp
  | cons v vs =>
    have hmax : max (v :: vs).length 1 = (v :: vs).length := max_eq_left (Nat.succ_pos _)
    rw [hmax, if_neg (by simp), if_neg (by simp), List.map_map]
    have hrow : ∀ x ∈ v :: vs,
        entry.key.length + ModuleBatchBuilder.moduleRowBytes data x =
          entry.key.length + (ModuleBatchBuilder.moduleValueBytes x +
            (data.moduleName.length + 8 + ModuleBatchBuilder.moduleOpcodeBytes x)) := by
      intro x _
      unfold ModuleBatchBuilder.moduleRowBytes
      omega
    -- the index of a value is in its cells only
    have hall := map_zipIdx_fst (fun x => entry.key.length + ModuleBatchBuilder.moduleRowBytes data x)
      (v :: vs)
    rw [List.map_congr_left hrow] at hall
    refine (congrArg List.sum hall).trans ?_
    rw [sum_map_const_add, List.sum_map_add, Nat.add_assoc]

/-! ### The primary builder -/

theorem accounted_eq {tag : TypeTag} {entry : RdbEntry} (h : typeTagFor entry = some tag) :
    tag.accounted entry = estimateEntryBytes entry + unestimatedBytes entry := by
  rw [accounted_eq_accountedBytes]
  unfold typeTagFor at h
  unfold estimateEntryBytes unestimatedBytes TypeTag.appends
  cases hv : entry.value with
  | string v =>
    rw [hv] at h
    dsimp only at h
    split at h <;> cases h <;> simp [accountedBytes]
  | list elements =>
    rw [hv] at h
    cases h
    have hsize : collectionBytes entry.key.length elements.zipIdx (fun e => e.1.length) =
        collectionBytes entry.key.length elements List.length := by
      unfold collectionBytes
      rw [List.length_zipIdx, map_zipIdx_fst]
    exact (accountedBytes_collection _ _ _ _ _ _ _).trans hsize
  | set members =>
    rw [hv] at h
    cases h
    exact accountedBytes_collection _ _ _ _ _ _ _
  | sortedSet pairs =>
    rw [hv] at h
    cases h
    exact accountedBytes_collection _ _ _ _ _ _ _
  | hash fields =>
    rw [hv] at h
    cases h
    exact accountedBytes_collection _ _ _ _ _ _ _
  | module data =>
    rw [hv] at h
    cases h
    refine (accountedBytes_module entry data).trans ?_
    refine congrArg (collectionBytes entry.key.length data.values · + _) (funext fun v => ?_)
    cases v <;> rfl
  | stream data =>
    rw [hv] at h
    cases h
    exact accountedBytes_stream _ _

/-! ### Where the estimate is exact -/

/-- A push to the primary builder comes to what the estimate says, and so stays within the
entry limit. -/
def RdbEntry.EstimateExact (entry : RdbEntry) : Prop :=
  ∀ tag, typeTagFor entry = some tag →
    (∀ b, (tag.pushed b entry).dataBytes = b.dataBytes + estimateEntryBytes entry) ∧
    ∀ (config : BatcherConfig) (m : Nat), config.maxEntryBytes = some m →
      config.oversized entry = false → ∀ b, (tag.pushed b entry).dataBytes ≤ b.dataBytes + m

/-- The value is not a module, and no entry of a stream has an id. -/
def RdbValue.Estimable : RdbValue → Prop
  | .module _ => False
  | .stream data => ∀ e ∈ data.entries, e.id = ""
  | _ => True

theorem streamIdBytes_eq_zero_iff (e : StreamEntry) : streamIdBytes e = 0 ↔ e.id = "" := by
  unfold streamIdBytes
  have hrows : max e.fields.length 1 ≠ 0 := by omega
  rw [Nat.mul_eq_zero, or_iff_right hrows, String.utf8ByteSize_eq_zero_iff]

theorem unestimatedBytes_module_pos {entry : RdbEntry} {data : ModuleData}
    (hv : entry.value = .module data) : 0 < unestimatedBytes entry := by
  unfold unestimatedBytes
  rw [hv]
  cases hvalues : data.values with
  | nil =>
    simp [hvalues, ModuleBatchBuilder.emptyModuleRowBytes]
  | cons v vs =>
    simp [hvalues]

theorem unestimatedBytes_eq_zero_iff (entry : RdbEntry) :
    unestimatedBytes entry = 0 ↔ entry.value.Estimable := by
  cases hv : entry.value with
  | module data =>
    have hpos := unestimatedBytes_module_pos hv
    exact iff_of_false (Nat.ne_of_gt hpos) id
  | stream data =>
    have hsum : unestimatedBytes entry = (data.entries.map streamIdBytes).sum := by
      unfold unestimatedBytes
      rw [hv]
    rw [hsum, List.sum_eq_zero_iff_forall_eq_nat]
    simp only [List.forall_mem_map, streamIdBytes_eq_zero_iff]
    rfl
  | _ => exact iff_of_true (by simp [unestimatedBytes, hv]) trivial

/-- A push that returns leaves what `pushed` says, and the estimate of that is exact for every
value but a module and a stream with entries that have ids. -/
theorem estimate_exact_iff (entry : RdbEntry) :
    (∀ (tag : TypeTag) rows b b', b.Holds tag rows → b.OffsetsFit →
      tag.push entry b = (.ok (), b') → b' = tag.pushed b entry) ∧
    (entry.EstimateExact ↔ entry.value.Estimable) := by
  refine ⟨fun tag rows b b' h hfit hpush => push_ok_eq h hfit hpush, ?_⟩
  rw [← unestimatedBytes_eq_zero_iff]
  constructor
  · intro h
    obtain ⟨tag, htag⟩ := typeTagFor_isSome entry
    have hraise := (h tag htag).1 tag.newBuilder
    rw [pushed_dataBytes, accounted_eq htag] at hraise
    omega
  · intro hzero tag htag
    have hraise : ∀ b, (tag.pushed b entry).dataBytes = b.dataBytes + estimateEntryBytes entry := by
      intro b
      rw [pushed_dataBytes, accounted_eq htag, hzero, Nat.add_zero]
    refine ⟨hraise, fun config m hm hfits b => ?_⟩
    have hle : estimateEntryBytes entry ≤ m := by
      simpa [BatcherConfig.oversized, hm] using hfits
    rw [hraise]
    omega

/-- The stream "k" with the entry "1-0" of one field. -/
def idEntry : RdbEntry where
  db := 0
  key := [107]
  value := .stream ⟨[⟨"1-0", [([102], [118])]⟩], 1, "1-0"⟩
  typeCode := rdbTypeStreamListpacks3
  expiryMs := none
  lruIdleSecs := none
  lfuFrequency := none
  totalElements := none
  elementOffset := none

/-- A limit of three bytes lets the entry through, which then accounts for six. -/
theorem idEntry_underestimated : typeTagFor idEntry = some .stream ∧
    estimateEntryBytes idEntry = 3 ∧ TypeTag.stream.accounted idEntry = 6 ∧
    ({ BatcherConfig.default with maxEntryBytes := some 3 } : BatcherConfig).oversized idEntry = false ∧
    ¬ idEntry.EstimateExact := by
  have hestimate : estimateEntryBytes idEntry = 3 := by decide
  have haccounted : TypeTag.stream.accounted idEntry = 6 := by decide
  refine ⟨rfl, hestimate, haccounted, rfl, fun h => ?_⟩
  have hraise := (h .stream rfl).1 StreamBatchBuilder.new
  have hpush := pushed_dataBytes .stream StreamBatchBuilder.new idEntry
  omega

end ValkeyRdb
