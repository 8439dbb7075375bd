import ValkeyRdb.Arrow.Capacity

/-!
# The batch iterator refines push and flush

`feed` is the plain fold over the items of the inner iterator. The batch iterator yields
its batches and errors one at a time, and then nothing more. A push that panics ends the
iteration: the panic is the outcome of that call of `next`.
-/

namespace ValkeyRdb

open StateAction (Keeps run_bind_ok run_get_bind)

section Feed

variable {ε : Type} (tryNew : TryNew ε)

/-- What the batches of a `push` or a `flush`, or its error or panic, are to the consumer. -/
def batchItems : Except (BatchError ε) (List TypedBatch) → List (BatchItem ε)
  | .ok batches => batches.map .ok
  | .error e => [.error e]

/-- `push` for every entry, nothing for an unknown type, one error for any other error,
and `flush` at the end; with the batcher that is left. -/
def feed : List (Res RdbEntry) → ArrowBatcher → List (BatchItem ε) × ArrowBatcher
  | [], b => (batchItems (ArrowBatcher.flush tryNew b).1, (ArrowBatcher.flush tryNew b).2)
  | .ok entry :: items, b =>
    let rest := feed items (ArrowBatcher.push tryNew entry b).2
    (batchItems (ArrowBatcher.push tryNew entry b).1 ++ rest.1, rest.2)
  | .error (.error (.unknownType _)) :: items, b => feed items b
  | .error f :: items, b => (.error (.fault f) :: (feed items b).1, (feed items b).2)

/-- The same without the `flush`: what comes of some items that are not all. -/
def fed : List (Res RdbEntry) → ArrowBatcher → List (BatchItem ε) × ArrowBatcher
  | [], b => ([], b)
  | .ok entry :: items, b =>
    let rest := fed items (ArrowBatcher.push tryNew entry b).2
    (batchItems (ArrowBatcher.push tryNew entry b).1 ++ rest.1, rest.2)
  | .error (.error (.unknownType _)) :: items, b => fed items b
  | .error f :: items, b => (.error (.fault f) :: (fed items b).1, (fed items b).2)

end Feed

/-- Whether an item is the error for an unsupported type. -/
def isUnknownType : Res RdbEntry → Bool
  | .error (.error (.unknownType _)) => true
  | _ => false

theorem unknownType_cases (f : Fault) :
    (∃ t, f = .error (.unknownType t)) ∨ isUnknownType (.error f) = false := by
  cases f with
  | error e =>
    cases e with
    | unknownType t => exact .inl ⟨t, rfl⟩
    | _ => exact .inr rfl
  | _ => exact .inr rfl

theorem feed_fault {ε : Type} (tryNew : TryNew ε) {f : Fault} (h : isUnknownType (.error f) = false)
    (items : List (Res RdbEntry)) (b : ArrowBatcher) :
    feed tryNew (.error f :: items) b =
      (.error (.fault f) :: (feed tryNew items b).1, (feed tryNew items b).2) := by
  cases f with
  | error e =>
    cases e with
    | unknownType t => cases h
    | _ => rfl
  | _ => rfl

theorem fed_fault {ε : Type} (tryNew : TryNew ε) {f : Fault} (h : isUnknownType (.error f) = false)
    (items : List (Res RdbEntry)) (b : ArrowBatcher) :
    fed tryNew (.error f :: items) b =
      (.error (.fault f) :: (fed tryNew items b).1, (fed tryNew items b).2) := by
  cases f with
  | error e =>
    cases e with
    | unknownType t => cases h
    | _ => rfl
  | _ => rfl

/-- What comes of some items does not depend on the items behind them. -/
theorem feed_append {ε : Type} (tryNew : TryNew ε) (pre post : List (Res RdbEntry))
    (b : ArrowBatcher) :
    feed tryNew (pre ++ post) b = ((fed tryNew pre b).1 ++ (feed tryNew post (fed tryNew pre b).2).1,
      (feed tryNew post (fed tryNew pre b).2).2) := by
  induction pre generalizing b with
  | nil => rfl
  | cons x pre ih =>
    rcases x with f | entry
    · rcases unknownType_cases f with ⟨t, rfl⟩ | hu
      · exact ih b
      · rw [List.cons_append, feed_fault tryNew hu, fed_fault tryNew hu, ih]
        rfl
    · rw [List.cons_append, feed, ih, fed, List.append_assoc]

/-- Whether an item is an entry that is dropped for its size. -/
def BatcherConfig.drops (config : BatcherConfig) : Res RdbEntry → Bool
  | .ok entry => config.oversized entry
  | .error _ => false

def batchesOf {ε : Type} (items : List (BatchItem ε)) : List TypedBatch :=
  items.filterMap Except.toOption

def errorsOf {ε : Type} (items : List (BatchItem ε)) : List (BatchError ε) :=
  items.filterMap fun x => match x with
    | .ok _ => none
    | .error e => some e

def entriesOf (items : List (Res RdbEntry)) : List RdbEntry := items.filterMap Except.toOption

def faultsOf (items : List (Res RdbEntry)) : List Fault :=
  items.filterMap fun x => match x with
    | .ok _ => none
    | .error f => if isUnknownType (.error f) = true then none else some f

theorem batchesOf_batchItems {ε : Type} (batches : List TypedBatch) :
    batchesOf (batchItems (.ok batches : Except (BatchError ε) _)) = batches := by
  simp [batchesOf, batchItems, List.filterMap_map, Function.comp_def, Except.toOption]

theorem errorsOf_batchItems {ε : Type} (batches : List TypedBatch) :
    errorsOf (batchItems (.ok batches : Except (BatchError ε) _)) = [] := by
  simp [errorsOf, batchItems, List.filterMap_map]

theorem batchesOf_append {ε : Type} (xs ys : List (BatchItem ε)) :
    batchesOf (xs ++ ys) = batchesOf xs ++ batchesOf ys := List.filterMap_append

theorem errorsOf_append {ε : Type} (xs ys : List (BatchItem ε)) :
    errorsOf (xs ++ ys) = errorsOf xs ++ errorsOf ys := List.filterMap_append

/-- What comes of some items whose pushes return. -/
theorem fed_emits {ε : Type} {tryNew : TryNew ε} (ht : TryNewAccepts tryNew)
    (items : List (Res RdbEntry)) {b : ArrowBatcher} (hv : b.Valid)
    (hfits : b.EachFits tryNew (entriesOf items)) :
    b.Emits (fun tag => (entriesOf items).flatMap (b.config.taken tag))
        (batchesOf (fed tryNew items b).1) (fed tryNew items b).2 ∧
      errorsOf (fed tryNew items b).1 = (faultsOf items).map .fault := by
  induction items generalizing b with
  | nil => exact ⟨.refl hv, rfl⟩
  | cons x xs ih =>
    rcases x with f | entry
    · obtain ⟨hemits, herrors⟩ := ih hv hfits
      rcases unknownType_cases f with ⟨t, rfl⟩ | hu
      · exact ⟨hemits, herrors⟩
      · have hfaults : faultsOf (.error f :: xs) = f :: faultsOf xs := by simp [faultsOf, hu]
        rw [fed_fault tryNew hu]
        refine ⟨hemits, ?_⟩
        rw [hfaults, List.map_cons, ← herrors]
        rfl
    · obtain ⟨out, b', hpush, hb'⟩ := ArrowBatcher.push_emits ht hv hfits.1
      have hrestFits : b'.EachFits tryNew (entriesOf xs) := by
        have hrest := hfits.2
        rwa [hpush] at hrest
      obtain ⟨hemits, herrors⟩ := ih hb'.valid hrestFits
      rw [fed, hpush, batchesOf_append, batchesOf_batchItems, errorsOf_append, errorsOf_batchItems]
      refine ⟨(hb'.trans hemits).congr fun tag => ?_, herrors⟩
      rw [hb'.config]
      rfl

/-- The batches of a run whose pushes return hold the rows of its entries, and its errors
are those of the inner iterator. -/
theorem feed_rows {ε : Type} {tryNew : TryNew ε} (ht : TryNewAccepts tryNew)
    (items : List (Res RdbEntry)) {b : ArrowBatcher} (hv : b.Valid)
    (hfits : b.EachFits tryNew (entriesOf items)) :
    (∀ t ∈ batchesOf (feed tryNew items b).1, t.WellFormed) ∧
      (∀ tag, tagRows tag (batchesOf (feed tryNew items b).1) =
        b.held tag ++ (entriesOf items).flatMap (b.config.taken tag)) ∧
      errorsOf (feed tryNew items b).1 = (faultsOf items).map .fault := by
  obtain ⟨hfed, herrors⟩ := fed_emits ht items hv hfits
  obtain ⟨out, b', hflush, hb', hempty⟩ := ArrowBatcher.flush_emits ht hfed.valid
  have hfeed : (feed tryNew items b).1 = (fed tryNew items b).1 ++ batchItems (.ok out) := by
    have hsplit := feed_append tryNew items [] b
    rw [List.append_nil] at hsplit
    rw [hsplit, feed, hflush]
  have hall := hfed.trans hb'
  rw [hfeed, batchesOf_append, errorsOf_append, batchesOf_batchItems, errorsOf_batchItems,
    List.append_nil]
  refine ⟨hall.batches, fun tag => ?_, herrors⟩
  have hrows := hall.rows tag
  rwa [hempty tag, List.append_nil, List.append_nil] at hrows

/-- Where the entries do not fit, the pushes up to some entry return and its push panics. -/
theorem feed_overflows {ε : Type} {tryNew : TryNew ε} (ht : TryNewAccepts tryNew)
    (items : List (Res RdbEntry)) {b : ArrowBatcher} (hv : b.Valid)
    (hover : ¬ b.EachFits tryNew (entriesOf items)) :
    ∃ pre entry post b', items = pre ++ .ok entry :: post ∧ b.EachFits tryNew (entriesOf pre) ∧
      ArrowBatcher.push tryNew entry (fed tryNew pre b).2 = (.error (.fault .panic), b') := by
  induction items generalizing b with
  | nil => exact absurd trivial hover
  | cons x xs ih =>
    rcases x with f | entry
    · obtain ⟨pre, entry, post, b', hxs, hpre, hpanic⟩ := ih hv hover
      refine ⟨.error f :: pre, entry, post, b', by rw [hxs]; rfl, hpre, ?_⟩
      rcases unknownType_cases f with ⟨t, rfl⟩ | hu
      · exact hpanic
      · rw [fed_fault tryNew hu]
        exact hpanic
    · by_cases hentry : b.EntryFits entry
      · obtain ⟨out, b₁, hpush, hemits⟩ := ArrowBatcher.push_emits ht hv hentry
        have hrestOver : ¬ b₁.EachFits tryNew (entriesOf xs) := by
          intro hrest
          refine hover ⟨hentry, ?_⟩
          rw [hpush]
          exact hrest
        obtain ⟨pre, later, post, b', hxs, hpre, hpanic⟩ := ih hemits.valid hrestOver
        refine ⟨.ok entry :: pre, later, post, b', by rw [hxs]; rfl, ⟨hentry, ?_⟩, ?_⟩
        · rw [hpush]
          exact hpre
        · rw [fed, hpush]
          exact hpanic
      · obtain ⟨b', hpanic⟩ := @ArrowBatcher.push_panics _ tryNew _ hv _ hentry
        exact ⟨[], entry, xs, b', rfl, trivial, hpanic⟩

/-- The items before the panic, and the panic. -/
theorem feed_of_panic {ε : Type} {tryNew : TryNew ε} {pre : List (Res RdbEntry)} {entry : RdbEntry}
    {b b' : ArrowBatcher}
    (hpanic : ArrowBatcher.push tryNew entry (fed tryNew pre b).2 = (.error (.fault .panic), b'))
    (post : List (Res RdbEntry)) :
    (feed tryNew (pre ++ .ok entry :: post) b).1 =
      (fed tryNew pre b).1 ++ .error (.fault .panic) :: (feed tryNew post b').1 := by
  rw [feed_append, feed, hpanic]
  rfl

theorem faults_le_errors {ε : Type} (tryNew : TryNew ε) (items : List (Res RdbEntry))
    (b : ArrowBatcher) : (faultsOf items).length ≤ (errorsOf (feed tryNew items b).1).length := by
  induction items generalizing b with
  | nil => exact Nat.zero_le _
  | cons x xs ih =>
    rcases x with f | entry
    · rcases unknownType_cases f with ⟨t, rfl⟩ | hu
      · exact ih b
      · have hfaults : faultsOf (.error f :: xs) = f :: faultsOf xs := by simp [faultsOf, hu]
        rw [hfaults, feed_fault tryNew hu]
        exact Nat.succ_le_succ (ih b)
    · have hrest := ih (ArrowBatcher.push tryNew entry b).2
      rw [feed, errorsOf, List.filterMap_append, List.length_append]
      exact hrest.trans (Nat.le_add_left _ _)

/-- A run that does not fit has an error of its own, the panic. -/
theorem faults_lt_errors {ε : Type} {tryNew : TryNew ε} (ht : TryNewAccepts tryNew)
    (items : List (Res RdbEntry)) {b : ArrowBatcher} (hv : b.Valid)
    (hover : ¬ b.EachFits tryNew (entriesOf items)) :
    (faultsOf items).length < (errorsOf (feed tryNew items b).1).length := by
  induction items generalizing b with
  | nil => exact absurd trivial hover
  | cons x xs ih =>
    rcases x with f | entry
    · rcases unknownType_cases f with ⟨t, rfl⟩ | hu
      · exact ih hv hover
      · have hfaults : faultsOf (.error f :: xs) = f :: faultsOf xs := by simp [faultsOf, hu]
        rw [hfaults, feed_fault tryNew hu]
        exact Nat.succ_lt_succ (ih hv hover)
    · by_cases hentry : b.EntryFits entry
      · obtain ⟨out, b', hpush, hemits⟩ := ArrowBatcher.push_emits ht hv hentry
        have hrestOver : ¬ b'.EachFits tryNew (entriesOf xs) := by
          intro hrest
          refine hover ⟨hentry, ?_⟩
          rw [hpush]
          exact hrest
        have hrest := ih hemits.valid hrestOver
        rw [feed, hpush, errorsOf, List.filterMap_append, List.length_append]
        exact hrest.trans_le (Nat.le_add_left _ _)
      · obtain ⟨b', hpanic⟩ := @ArrowBatcher.push_panics _ tryNew _ hv _ hentry
        rw [feed, hpanic]
        exact Nat.lt_succ_of_le (faults_le_errors tryNew xs b')

/-! ### What a run does to the configuration and the counter -/

def ArrowBatcher.SameCount (b b' : ArrowBatcher) : Prop :=
  b'.config = b.config ∧ b'.skippedOversized = b.skippedOversized

namespace ArrowBatcher

section Count

variable {ε : Type} {tryNew : TryNew ε}

theorem SameCount.refl (b : ArrowBatcher) : SameCount b b := ⟨rfl, rfl⟩

theorem SameCount.trans (a b c : ArrowBatcher) (h : SameCount a b) (h' : SameCount b c) :
    SameCount a c := ⟨h'.1.trans h.1, h'.2.trans h.2⟩

theorem sameCount_setBuilder (b : ArrowBatcher) (tag : TypeTag) (x : BatchBuilder) :
    SameCount b (b.setBuilder tag x) := ⟨by simp, by simp⟩

theorem flushTag_keeps (tag : TypeTag) (out : List TypedBatch) :
    Keeps SameCount (flushTag tryNew tag out) := by
  intro b
  unfold flushTag
  split
  · exact SameCount.refl b
  · split <;> exact sameCount_setBuilder b tag _

theorem maybeFlushTag_keeps (tag : TypeTag) (out : List TypedBatch) :
    Keeps SameCount (maybeFlushTag tryNew tag out) := by
  apply Keeps.bind SameCount.trans (Keeps.get SameCount.refl)
  intro b
  dsimp only
  split
  · exact flushTag_keeps tag out
  · exact Keeps.pure SameCount.refl out

theorem pushTo_keeps (tag : TypeTag) (entry : RdbEntry) :
    Keeps SameCount (pushTo tag entry : BatcherM ε Unit) := by
  intro b
  unfold pushTo
  split <;> exact sameCount_setBuilder b tag _

theorem pushTagged_keeps (tag : TypeTag) (entry : RdbEntry) :
    Keeps SameCount (pushTagged tryNew tag entry) := by
  apply Keeps.bind SameCount.trans (pushTo_keeps tag entry)
  intro _
  apply Keeps.bind SameCount.trans (Keeps.get SameCount.refl)
  intro b
  dsimp only
  split
  · apply Keeps.bind SameCount.trans (pushTo_keeps .geo entry)
    intro _
    apply Keeps.bind SameCount.trans (maybeFlushTag_keeps tag [])
    exact maybeFlushTag_keeps .geo
  · apply Keeps.bind SameCount.trans (maybeFlushTag_keeps tag [])
    exact Keeps.pure SameCount.refl

theorem flushTags_keeps (tags : List TypeTag) (out : List TypedBatch) :
    Keeps SameCount (flushTags tryNew tags out) := by
  induction tags generalizing out with
  | nil => exact Keeps.pure SameCount.refl out
  | cons tag tags ih => exact Keeps.bind SameCount.trans (flushTag_keeps tag out) ih

theorem push_count (entry : RdbEntry) (b : ArrowBatcher) :
    (push tryNew entry b).2.config = b.config ∧
      (push tryNew entry b).2.skippedOversized =
        if b.config.oversized entry = true then satAdd64 b.skippedOversized 1
        else b.skippedOversized := by
  obtain ⟨tag, htag⟩ := typeTagFor_isSome entry
  unfold push
  simp only [htag]
  rw [run_get_bind]
  split
  · exact ⟨rfl, rfl⟩
  · exact pushTagged_keeps tag entry b

end Count

end ArrowBatcher

theorem feed_count {ε : Type} (tryNew : TryNew ε) (items : List (Res RdbEntry)) (b : ArrowBatcher)
    (hb : b.skippedOversized < 2 ^ 64) :
    (feed tryNew items b).2.skippedOversized =
      min (b.skippedOversized + items.countP b.config.drops) (2 ^ 64 - 1) := by
  induction items generalizing b with
  | nil =>
    have hflush : (ArrowBatcher.flush tryNew b).2.skippedOversized = b.skippedOversized :=
      (ArrowBatcher.flushTags_keeps TypeTag.all [] b).2
    simp only [feed, List.countP_nil, hflush]
    omega
  | cons x xs ih =>
    rcases x with f | entry
    · rw [List.countP_cons_of_neg (by simp [BatcherConfig.drops])]
      rcases unknownType_cases f with ⟨t, rfl⟩ | hu
      · exact ih b hb
      · rw [feed_fault tryNew hu]
        exact ih b hb
    · obtain ⟨hconfig, hcount⟩ := @ArrowBatcher.push_count ε tryNew entry b
      have hrest := ih (ArrowBatcher.push tryNew entry b).2 (by
        rw [hcount, satAdd64]
        split <;> omega)
      rw [hconfig, hcount] at hrest
      simp only [feed]
      rw [hrest, satAdd64]
      cases ho : b.config.oversized entry with
      | true =>
        rw [List.countP_cons_of_pos (by simpa [BatcherConfig.drops] using ho)]
        simp only [if_true]
        omega
      | false =>
        rw [List.countP_cons_of_neg (by simp [BatcherConfig.drops, ho])]
        simp

/-! ### The iterator -/

namespace BatchIterator

section Run

variable {σ ε : Type} {tryNew : TryNew ε} {inner : EntryIter σ} {k : Nat}

theorem drain {it last : BatchIterator σ} {pending : List TypedBatch} {xs : List (BatchItem ε)}
    (hp : it.pending = pending) (hk : 1 ≤ k)
    (h : Calls (round tryNew inner) (.error (.fault .diverge)) k { it with pending := [] } xs last) :
    Calls (round tryNew inner) (.error (.fault .diverge)) k it (pending.map .ok ++ xs) last := by
  induction pending generalizing it with
  | nil =>
    cases it
    cases hp
    exact h
  | cons batch rest ih =>
    have hr : round tryNew inner it = (.ret (some (.ok batch)), { it with pending := rest }) := by
      unfold round
      rw [hp]
    exact .emit hk hr (ih rfl h)

theorem finished_round {it : BatchIterator σ} (hp : it.pending = []) (hf : it.finished = true) :
    round tryNew inner it = (.ret none, it) := by
  unfold round
  simp [hp, hf]

theorem fault_round {it : BatchIterator σ} {f : Fault} {s : σ} (hp : it.pending = [])
    (hf : it.finished = false) (hu : isUnknownType (.error f) = false)
    (hx : inner it.iter = (some (.error f), s)) :
    round tryNew inner it = (.ret (some (.error (.fault f))), { it with iter := s }) := by
  unfold round
  simp only [hp, hf, hx]
  cases f with
  | error e =>
    cases e with
    | unknownType t => cases hu
    | _ => rfl
  | _ => rfl

theorem enqueue_calls {it last : BatchIterator σ}
    {o : Except (BatchError ε) (List TypedBatch) × ArrowBatcher} {s : BatchIterator σ}
    {xs : List (BatchItem ε)} (hk : 1 ≤ k) (hs : s.pending = [])
    (hr : round tryNew inner it = enqueue s o)
    (h : Calls (round tryNew inner) (.error (.fault .diverge)) k { s with batcher := o.2 } xs last) :
    Calls (round tryNew inner) (.error (.fault .diverge)) (k + 1) it (batchItems o.1 ++ xs) last := by
  obtain ⟨x, b⟩ := o
  cases x with
  | error e => exact (Calls.emit hk hr h).mono (Nat.le_succ k)
  | ok batches =>
    have hqueue : ({ s with batcher := b, pending := s.pending ++ batches } : BatchIterator σ).pending =
        batches := by simp [hs]
    refine Calls.again hr (drain hqueue hk ?_)
    have hnil : ({ s with batcher := b, pending := [] } : BatchIterator σ) = { s with batcher := b } := by
      cases s
      cases hs
      rfl
    exact hnil ▸ h

theorem calls_feed {s' : σ} (items : List (Res RdbEntry)) {it : BatchIterator σ}
    (hp : it.pending = []) (hf : it.finished = false) (h : Yields inner it.iter items s') :
    Calls (round tryNew inner) (.error (.fault .diverge)) (items.length + 2) it
      (feed tryNew items it.batcher).1
      ⟨(feed tryNew items it.batcher).2, s', [], true, it.skipped + items.countP isUnknownType⟩ := by
  induction items generalizing it with
  | nil =>
    have hr : round tryNew inner it = enqueue { it with iter := s', finished := true }
        (ArrowBatcher.flush tryNew it.batcher) := by
      unfold round
      simp [hp, hf, h.nil_inv]
    have hlast : round tryNew inner ⟨(ArrowBatcher.flush tryNew it.batcher).2, s', it.pending, true,
        it.skipped⟩ = (.ret none, _) := finished_round hp rfl
    have hend := enqueue_calls (Nat.le_refl 1) (by exact hp) hr (Calls.finish (Nat.le_refl 1) hlast)
    rw [List.append_nil, hp] at hend
    exact hend
  | cons x xs ih =>
    obtain ⟨m, hx, hxs⟩ := h.cons_inv
    rcases x with f | entry
    · rcases unknownType_cases f with ⟨t, rfl⟩ | hu
      · have hr : round tryNew inner it = (.again, { it with iter := m, skipped := it.skipped + 1 }) := by
          unfold round
          simp [hp, hf, hx]
        have hrest := Calls.again hr (ih (by exact hp) (by exact hf) hxs)
        rw [List.countP_cons_of_pos (by rfl), Nat.add_comm (xs.countP isUnknownType), ← Nat.add_assoc]
        exact hrest
      · rw [feed_fault tryNew hu, List.countP_cons_of_neg (by simp [hu])]
        have hrest := @ih { it with iter := m } hp hf hxs
        exact .emit (by omega) (fault_round hp hf hu hx) (hrest.mono (by simp))
    · have hr : round tryNew inner it = enqueue { it with iter := m }
          (ArrowBatcher.push tryNew entry it.batcher) := by
        unfold round
        simp [hp, hf, hx]
      have hrest := @ih { it with iter := m, batcher := (ArrowBatcher.push tryNew entry it.batcher).2 }
        hp hf hxs
      have hk : 1 ≤ xs.length + 2 := by omega
      have hcalls := enqueue_calls (s := { it with iter := m }) hk hp hr hrest
      rw [List.countP_cons_of_neg (by simp [isUnknownType])]
      exact hcalls.mono (by simp)

end Run

end BatchIterator

/-- The items a batch iterator yields are those of the fold; after them it is exhausted,
whatever the inner iterator would do, and has counted what it left out. Where a push
panics, the items before it have been yielded and the next call panics. -/
theorem batch_iterator_refines {σ ε : Type} (tryNew : TryNew ε) (inner : EntryIter σ) (s s' : σ)
    (items : List (Res RdbEntry)) (h : Yields inner s items s') (config : BatcherConfig) (n : Nat)
    (hn : items.length + 2 ≤ n) :
    (.error (.fault .panic) ∉ (feed tryNew items (ArrowBatcher.new config)).1 →
      ∃ last, Yields (BatchIterator.next tryNew inner n) ((ArrowBatcher.new config).process s)
          (feed tryNew items (ArrowBatcher.new config)).1 last ∧
        (∀ (later : EntryIter σ) m, 1 ≤ m →
          BatchIterator.next tryNew later m last = (none, last)) ∧
        last.skippedCount = items.countP isUnknownType ∧
        last.skippedOversizedCount = min (items.countP config.drops) (2 ^ 64 - 1)) ∧
    ∀ pre entry post, items = pre ++ .ok entry :: post →
      .error (.fault .panic) ∉ (fed tryNew pre (ArrowBatcher.new config)).1 → ∀ b',
      ArrowBatcher.push tryNew entry (fed tryNew pre (ArrowBatcher.new config)).2 =
        (.error (.fault .panic), b') →
      ∃ m m', Steps (BatchIterator.next tryNew inner n) ((ArrowBatcher.new config).process s)
          (fed tryNew pre (ArrowBatcher.new config)).1 m ∧
        BatchIterator.next tryNew inner n m = (some (.error (.fault .panic)), m') := by
  have hcalls := @BatchIterator.calls_feed σ ε tryNew inner s' items
    ((ArrowBatcher.new config).process s) rfl rfl h
  refine ⟨fun _ => ⟨_, hcalls.yields hn, fun later m hm => ?_, ?_, ?_⟩, ?_⟩
  · exact loopNext_ret (BatchIterator.finished_round rfl rfl) hm
  · exact Nat.zero_add _
  · have hcount := feed_count tryNew items (ArrowBatcher.new config) (Nat.two_pow_pos 64)
    rw [show (ArrowBatcher.new config).skippedOversized = 0 from rfl, Nat.zero_add] at hcount
    exact hcount
  · intro pre entry post hitems _ b' hpanic
    obtain ⟨m, hsteps, -⟩ := hcalls.yields hn
    subst hitems
    change Steps _ _ (feed tryNew (pre ++ .ok entry :: post) (ArrowBatcher.new config)).1 m at hsteps
    rw [feed_of_panic hpanic] at hsteps
    obtain ⟨m₁, hpre, hrest⟩ := hsteps.split
    cases hrest with
    | cons hnext _ => exact ⟨m₁, _, hpre, hnext⟩

theorem eq_batches_of_errors {ε : Type} {xs : List (BatchItem ε)} (h : errorsOf xs = []) :
    xs = (batchesOf xs).map .ok := by
  induction xs with
  | nil => rfl
  | cons x xs ih =>
    cases x with
    | error e => cases h
    | ok t => exact congrArg (Except.ok t :: ·) (ih h)

/-- Items that are entries or unsupported types. -/
def Readable (items : List (Res RdbEntry)) : Prop := faultsOf items = []

/-- Readable items that fit give batches only, with the rows of the entries. -/
theorem feed_readable {ε : Type} {tryNew : TryNew ε} (ht : TryNewAccepts tryNew)
    {items : List (Res RdbEntry)} (hread : Readable items) {config : BatcherConfig}
    (hfits : config.Fits (entriesOf items)) :
    ∃ batches, (feed tryNew items (ArrowBatcher.new config)).1 = batches.map .ok ∧
      (∀ t ∈ batches, t.WellFormed) ∧
      ∀ tag, tagRows tag batches = (entriesOf items).flatMap (config.taken tag) := by
  obtain ⟨hv, hnil⟩ := ArrowBatcher.new_valid config
  rw [← eachFits_iff_fits ht] at hfits
  obtain ⟨hbatches, hrows, herrors⟩ := feed_rows ht items hv hfits
  rw [hread] at herrors
  refine ⟨_, eq_batches_of_errors herrors, hbatches, fun tag => ?_⟩
  rw [hrows, hnil]
  rfl

/-- Items that do not fit end in a panic. -/
theorem panic_mem_feed {ε : Type} {tryNew : TryNew ε} (ht : TryNewAccepts tryNew)
    {items : List (Res RdbEntry)} {config : BatcherConfig} (hover : ¬ config.Fits (entriesOf items)) :
    .error (.fault .panic) ∈ (feed tryNew items (ArrowBatcher.new config)).1 := by
  rw [← eachFits_iff_fits ht] at hover
  obtain ⟨pre, entry, post, b', rfl, -, hpanic⟩ :=
    feed_overflows ht items (ArrowBatcher.new_valid config).1 hover
  rw [feed_of_panic hpanic]
  simp

/-- A batch iterator that yields batches only has had room for the entries. -/
theorem fits_of_yields {σ ε : Type} {tryNew : TryNew ε} (ht : TryNewAccepts tryNew)
    {inner : EntryIter σ} {s s' : σ} {items : List (Res RdbEntry)} (h : Yields inner s items s')
    {config : BatcherConfig} {n : Nat} (hn : items.length + 2 ≤ n) {batches : List TypedBatch}
    {last : BatchIterator σ} (hy : Yields (BatchIterator.next tryNew inner n)
      ((ArrowBatcher.new config).process s) (batches.map .ok) last) :
    config.Fits (entriesOf items) := by
  have hcalls := @BatchIterator.calls_feed σ ε tryNew inner s' items
    ((ArrowBatcher.new config).process s) rfl rfl h
  have hsame : batches.map .ok = (feed tryNew items (ArrowBatcher.new config)).1 :=
    (hy.unique (hcalls.yields hn)).1
  by_contra hover
  have hpanic := panic_mem_feed ht hover
  rw [← hsame] at hpanic
  obtain ⟨t, -, ht⟩ := List.mem_map.mp hpanic
  cases ht

theorem batches_of_readable {σ ε : Type} {tryNew : TryNew ε} (ht : TryNewAccepts tryNew)
    {inner : EntryIter σ} {s s' : σ} {items : List (Res RdbEntry)} (h : Yields inner s items s')
    (hread : Readable items) {config : BatcherConfig} (hfits : config.Fits (entriesOf items)) :
    ∃ batches last, (∀ n, items.length + 2 ≤ n → Yields (BatchIterator.next tryNew inner n)
        ((ArrowBatcher.new config).process s) (batches.map .ok) last) ∧
      (∀ t ∈ batches, t.WellFormed) ∧
      ∀ tag, tagRows tag batches = (entriesOf items).flatMap (config.taken tag) := by
  obtain ⟨batches, hfeed, hbatches, hrows⟩ := feed_readable ht hread hfits
  have hcalls := @BatchIterator.calls_feed σ ε tryNew inner s' items
    ((ArrowBatcher.new config).process s) rfl rfl h
  exact ⟨batches, _, fun n hn => hfeed ▸ hcalls.yields hn, hbatches, hrows⟩

def mixedConfig : BatcherConfig :=
  { BatcherConfig.default with batchSize := 2, maxEntryBytes := some 4 }

/-- Two rows that reach the threshold, a type that is not supported, a file that breaks off,
an entry over the limit, and one row for the flush. -/
def mixedItems : List (Res RdbEntry) :=
  [.ok letterEntry, .error (.error (.unknownType 9)), .error (.error (.io .unexpectedEof)),
    .ok (keyEntry 0 rdbTypeString (none, none, none) [107] (.string [1, 2, 3, 4]) none none),
    .ok (keyEntry 0 rdbTypeString (none, none, none) [107] (.string [118]) none none)]

theorem batch_iterator_refines_mixed : ∃ last t u,
    Yields (BatchIterator.next checkedTryNew listNext 7)
      ((ArrowBatcher.new mixedConfig).process mixedItems)
      [.ok t, .error (.fault (.error (.io .unexpectedEof))), .ok u] last ∧
    t.tag = .list ∧ u.tag = .string ∧ last.skippedCount = 1 ∧ last.skippedOversizedCount = 1 := by
  obtain ⟨t, u, hfeed, ht, hu⟩ : ∃ t u, (feed checkedTryNew mixedItems (ArrowBatcher.new mixedConfig)).1 =
      [.ok t, .error (.fault (.error (.io .unexpectedEof))), .ok u] ∧ t.tag = .list ∧
      u.tag = .string := ⟨_, _, rfl, rfl, rfl⟩
  obtain ⟨last, hy, -, hskipped, hoversized⟩ := (batch_iterator_refines checkedTryNew listNext
    mixedItems [] mixedItems (yields_listNext mixedItems) mixedConfig 7 (Nat.le_refl 7)).1
    (by rw [hfeed]; simp)
  rw [hfeed] at hy
  exact ⟨last, t, u, hy, ht, hu, hskipped, hoversized⟩

end ValkeyRdb
