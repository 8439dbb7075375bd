import ValkeyRdb.Arrow.Capacity
import ValkeyRdb.Format.WholeFile
import ValkeyRdb.Reader.Pieces

/-!
# Columns with 32-bit offsets (builders.rs:60-120)

A `BinaryBuilder` or `StringBuilder` counts the bytes of its values with 32-bit offsets,
and an append beyond them panics. The thresholds are looked at after all the rows of an
entry, so that they do not keep one entry from going beyond.
-/

namespace ValkeyRdb

open ArrowBatcher in
/-- All pushes of a run return, so that no append goes beyond the offsets of its column,
exactly when the configuration and the entries fit; the run panics otherwise. -/
theorem offsets_fit_iff {ε : Type} (tryNew : TryNew ε) (ht : TryNewAccepts tryNew)
    (config : BatcherConfig) (entries : List RdbEntry) :
    ((∃ out b, pushAll tryNew entries (new config) = (.ok out, b) ∧
      ∀ tag, (b.builder tag).OffsetsFit) ↔ config.Fits entries) ∧
    (¬ config.Fits entries →
      ∃ b, pushAll tryNew entries (new config) = (.error (.fault .panic), b)) := by
  have hv := (new_valid config).1
  rw [← eachFits_iff_fits ht]
  refine ⟨⟨fun ⟨out, b, hrun, _⟩ => eachFits_of_ok ht hv hrun, fun hfits => ?_⟩,
    pushAll_panics ht entries hv⟩
  obtain ⟨out, b, hrun, hemits⟩ := pushAll_emits ht entries hv hfits
  exact ⟨out, b, hrun, fun tag => (hemits.valid tag).2⟩

/-! ### A key that is too long for four elements -/

/-- A file with one list of four empty elements under a key of the longest length. -/
def wideFile : FileForm where
  toHeaderForm := selectFile.toHeaderForm
  records := [.key ⟨.raw (.thirtyTwo maxAllocBytes (by decide)) wideKey
      (by rw [wideKey, List.length_replicate]; rfl),
    .list (.list ⟨.four, List.replicate 4 (.raw .zero [] LenForm.zero_value), LenForm.four_value⟩)⟩]

theorem wideFile_entries : entries [] wideFile.records = [fourEntry wideKey] := rfl

/-- The file opens, under the default chunk limit, and holds the list. -/
theorem wideFile_reads : ∃ r, RdbReader.new (wideFile.body ++ List.replicate 8 0) = .ok r ∧
    r.maxKeyElements = some defaultMaxKeyElements ∧
    r.withoutChunking.items.1 = [fourEntry wideKey].map .ok := by
  have htrailer : wideFile.TrailerOk (List.replicate 8 0) := ⟨rfl, .inl (by decide)⟩
  obtain ⟨r, s, hr, hy⟩ := wideFile.new_entries (by decide) htrailer
    (by simp [wideFile, Record.Supported]) (by
      simp [wideFile, Record.Fits, KeyForm.Fits, ValueForm.Fits, ValueForm.WithinCaps,
        ValueForm.Near, ListForm.Fits, Counted.Fits, StringForm.Fits, wideKey]
      decide)
  rw [wideFile_entries] at hy
  refine ⟨r, hr, ?_, ((Reachable.new hr).withoutChunking.yields.unique hy).1⟩
  rw [new_eq hr]
  rfl

theorem fourEntry_whole (key : Bytes) :
    (fourEntry key).pieces (some defaultMaxKeyElements) = [fourEntry key] := by
  have hfour : ¬ (defaultMaxKeyElements : Nat) < 4 := by decide
  have hfew : ¬ (fourEntry key).Splits defaultMaxKeyElements := fun h => hfour h.2
  unfold RdbEntry.pieces
  exact if_neg hfew

/-- With the default chunk limit the reader of the file yields the list in one entry. -/
theorem wideFile_yields : ∃ r s, RdbReader.new (wideFile.body ++ List.replicate 8 0) = .ok r ∧
    r.maxKeyElements = some defaultMaxKeyElements ∧
    Yields RdbReader.next r [.ok (fourEntry wideKey)] s := by
  obtain ⟨r, hr, hlimit, hitems⟩ := wideFile_reads
  obtain ⟨s, hy⟩ := configured_yields hr (by simp [hitems, Terminal]) (some defaultMaxKeyElements)
  have hsame : r.configure (some defaultMaxKeyElements) = r := by
    rw [new_eq hr]
    rfl
  have hone : r.withoutChunking.items.1.flatMap (pieceItems (some defaultMaxKeyElements)) =
      [.ok (fourEntry wideKey)] := by
    simp [hitems, pieceItems, fourEntry_whole]
  rw [hsame, hone] at hy
  exact ⟨r, s, hr, hlimit, hy⟩

/-- With the default chunk limit the reader yields the list of the file, and with the
default configuration its push panics. -/
theorem wideFile_overflows : ∃ r s, RdbReader.new (wideFile.body ++ List.replicate 8 0) = .ok r ∧
    r.maxKeyElements = some defaultMaxKeyElements ∧
    Yields RdbReader.next r [.ok (fourEntry wideKey)] s ∧
    ∃ b, ArrowBatcher.pushAll checkedTryNew [fourEntry wideKey] (.new BatcherConfig.default) =
      (.error (.fault .panic), b) := by
  obtain ⟨r, s, hr, hlimit, hy⟩ := wideFile_yields
  have hover := @wideEntry_overflows BatcherConfig.default rfl []
  rw [← eachFits_iff_fits checkedTryNew_accepts] at hover
  exact ⟨r, s, hr, hlimit, hy,
    ArrowBatcher.pushAll_panics checkedTryNew_accepts _ (ArrowBatcher.new_valid _).1 hover⟩

/-- A short key fits. -/
theorem offsets_fit_iff_short : ∃ out b,
    ArrowBatcher.pushAll checkedTryNew [fourEntry [107], fourEntry [107]]
      (.new BatcherConfig.default) = (.ok out, b) ∧ ∀ tag, (b.builder tag).OffsetsFit :=
  (offsets_fit_iff checkedTryNew checkedTryNew_accepts BatcherConfig.default
    [fourEntry [107], fourEntry [107]]).1.mpr
    ((eachFits_iff_fits checkedTryNew_accepts _ _).mp (by decide +kernel))

end ValkeyRdb
