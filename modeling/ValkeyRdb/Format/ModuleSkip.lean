import Mathlib.Algebra.Order.BigOperators.Group.List
import ValkeyRdb.Format.Modules
import ValkeyRdb.Reader.Safety

/-!
# Module payloads, kept and skipped

The reader that keeps the values of a module and the one that drops them run the same
loop. The first is bounded by two caps, and nothing else makes it refuse a payload that
was written as such.
-/

namespace ValkeyRdb

open ReadAction (FollowedBy)

/-! ### Every list of values can be written -/

/-- The value has the width of its type; a string has a length that a vector can have. -/
def ModuleValue.InRange : ModuleValue → Prop
  | .signedInt v => FitsSigned 64 v
  | .unsignedInt v => v < 2 ^ 64
  | .string v => v.length ≤ maxSliceLen
  | _ => True

theorem ModuleItem.exists_of_inRange (v : ModuleValue) (h : v.InRange) :
    ∃ t : ModuleItem, t.value = v := by
  cases v with
  | signedInt v =>
    refine ⟨.sint (.six 1 (by decide)) (.sixtyFour (unsigned 64 v) (unsigned_lt 64 v)) rfl, ?_⟩
    have hback : signed 64 (unsigned 64 v) = v := signed_unsigned (by decide) h
    exact congrArg ModuleValue.signedInt hback
  | unsignedInt v => exact ⟨.uint (.six 2 (by decide)) (.sixtyFour v h) rfl, rfl⟩
  | float v =>
    refine ⟨.float (.six 3 (by decide)) ⟨leBytes 4 v.bits.toNat, length_leBytes _ _⟩ rfl, ?_⟩
    have hback : leVal (leBytes 4 v.bits.toNat) = v.bits.toNat := leVal_leBytes_of_lt v.bits.isLt
    change ModuleValue.float (F32.ofLeBytes (leBytes 4 v.bits.toNat)) = .float v
    rw [F32.ofLeBytes, hback, BitVec.ofNat_toNat, BitVec.setWidth_eq]
  | double v =>
    refine ⟨.double (.six 4 (by decide)) ⟨leBytes 8 v.bits.toNat, length_leBytes _ _⟩ rfl, ?_⟩
    have hback : leVal (leBytes 8 v.bits.toNat) = v.bits.toNat := leVal_leBytes_of_lt v.bits.isLt
    change ModuleValue.double (F64.ofLeBytes (leBytes 8 v.bits.toNat)) = .double v
    rw [F64.ofLeBytes, hback, BitVec.ofNat_toNat, BitVec.setWidth_eq]
  | string v =>
    have hlt : v.length < 2 ^ 64 := Nat.lt_of_le_of_lt h (by decide)
    exact ⟨.string (.six 5 (by decide)) (.raw (.sixtyFour v.length hlt) v rfl) rfl, rfl⟩

theorem ModuleStream.exists_of_inRange (values : List ModuleValue)
    (h : ∀ v ∈ values, v.InRange) :
    ∃ m : ModuleStream, m.items.map ModuleItem.value = values := by
  suffices hitems : ∃ items : List ModuleItem, items.map ModuleItem.value = values by
    obtain ⟨items, hitems⟩ := hitems
    exact ⟨⟨items, .six 0 (by decide), rfl⟩, hitems⟩
  induction values with
  | nil => exact ⟨[], rfl⟩
  | cons v values ih =>
    obtain ⟨t, ht⟩ := ModuleItem.exists_of_inRange v (h v List.mem_cons_self)
    obtain ⟨ts, hts⟩ := ih fun w hw => h w (List.mem_cons_of_mem v hw)
    exact ⟨t :: ts, by rw [List.map_cons, ht, hts]⟩

/-! ### The caps -/

/-- A string within the cap on all strings is within those on one, compressed or not. -/
theorem StringForm.fits_of_length (f : StringForm) (h : f.value.length ≤ maxModuleStringBytes) :
    f.Fits := by
  have hcap : 2 * maxModuleStringBytes = maxAllocBytes := by decide
  cases f with
  | raw len s hlen =>
    rw [StringForm.value] at h
    rw [StringForm.Fits]
    omega
  | lzf cf uf data hc hu =>
    have hratio := data.length_bytes_le
    rw [StringForm.value] at h
    rw [StringForm.Fits]
    omega
  | _ => trivial

theorem ModuleItem.fits_of_stringBytes (t : ModuleItem) (h : t.stringBytes ≤ maxModuleStringBytes) :
    t.Fits := by
  cases t with
  | string opcode s hop => exact s.fits_of_length h
  | _ => trivial

theorem ModuleStream.fits_iff (m : ModuleStream) :
    m.Fits ↔ m.items.length ≤ maxModuleValues ∧ m.stringBytes ≤ maxModuleStringBytes := by
  refine and_iff_right_of_imp fun ⟨_, hbytes⟩ t ht => t.fits_of_stringBytes ?_
  have hle : t.stringBytes ≤ m.stringBytes :=
    List.le_sum_of_mem (List.mem_map_of_mem ht)
  exact le_trans hle hbytes

/-! ### The skipping reader -/

section Emit

variable {σ σ' : Type} {emit : σ → ModuleValue → Res σ} {emit' : σ' → ModuleValue → Res σ'}

/-- A round does not depend on what is done with the value, if it is accepted. -/
theorem moduleRound_followed (h : ∀ st v, ∃ st', emit' st v = .ok st') (st : σ) (st' : σ') :
    FollowedBy (Sum.LiftRel (fun _ _ => True) fun _ _ => True) (moduleRound emit st)
      (moduleRound emit' st') := by
  refine (FollowedBy.refl readModuleValue).bind fun v _ hv => ?_
  subst hv
  cases v with
  | none => exact FollowedBy.pure (Sum.LiftRel.inr trivial)
  | some v =>
    have hlift : FollowedBy (fun _ _ => True) (ReadAction.lift (emit st v) : ReadM σ)
        (ReadAction.lift (emit' st' v) : ReadM σ') := by
      refine FollowedBy.lift fun _ _ => ?_
      obtain ⟨next, hnext⟩ := h st' v
      exact ⟨next, hnext, trivial⟩
    exact hlift.bind fun _ _ _ => FollowedBy.pure (Sum.LiftRel.inl trivial)

theorem forEachModuleValue_followed (h : ∀ st v, ∃ st', emit' st v = .ok st') (st : σ)
    (st' : σ') :
    FollowedBy (fun _ _ => True) (forEachModuleValue emit st) (forEachModuleValue emit' st') :=
  FollowedBy.loop (I := fun _ _ => True) (fun st st' _ => moduleRound_followed h st st') trivial

end Emit

theorem readModuleData_followed : FollowedBy (fun _ _ => True) readModuleData skipModuleData := by
  intro s s₁ values hread
  obtain ⟨st, s', hloop, hpure⟩ := ReadAction.bind_eq_ok hread
  cases hpure
  exact forEachModuleValue_followed (fun _ _ => ⟨(), rfl⟩) _ () s _ st hloop

/-! ### Both readers -/

/-- Lists of values are written and read back up to the caps, which are all that a written
payload is refused for; what is kept can also be skipped, over the same bytes. -/
theorem readModuleData_payloads :
    (∀ values : List ModuleValue, (∀ v ∈ values, v.InRange) →
      ∃ m : ModuleStream, m.items.map ModuleItem.value = values) ∧
    (∀ (m : ModuleStream) (rest : Bytes) (crc : BitVec 64),
      m.items.length ≤ 5000000 → m.stringBytes ≤ 256 * 1024 * 1024 →
      readModuleData.run ⟨m.bytes ++ rest, crc⟩ =
        (.ok (m.items.map ModuleItem.value), ⟨rest, crc64 crc m.bytes⟩)) ∧
    (∀ s s' values, readModuleData.run s = (.ok values, s') →
      skipModuleData.run s = (.ok (), s')) ∧
    (∀ (m : ModuleStream) (rest : Bytes) (crc : BitVec 64),
      (∃ err, (readModuleData.run ⟨m.bytes ++ rest, crc⟩).1 = .error (.error err)) ↔
        5000000 < m.items.length ∨ 256 * 1024 * 1024 < m.stringBytes) := by
  have hread : ∀ (m : ModuleStream) (rest : Bytes) (crc : BitVec 64),
      m.items.length ≤ 5000000 → m.stringBytes ≤ 256 * 1024 * 1024 →
      readModuleData.run ⟨m.bytes ++ rest, crc⟩ =
        (.ok (m.items.map ModuleItem.value), ⟨rest, crc64 crc m.bytes⟩) :=
    fun m rest crc hcount hbytes =>
      (m.decodesData.decodes (m.fits_iff.mpr ⟨hcount, hbytes⟩)).run rest crc
  refine ⟨ModuleStream.exists_of_inRange, hread, fun s s' values h => ?_, fun m rest crc => ?_⟩
  · obtain ⟨_, hskip, -⟩ := readModuleData_followed s s' values h
    exact hskip
  · constructor
    · rintro ⟨err, herr⟩
      by_contra hwithin
      rw [not_or, Nat.not_lt, Nat.not_lt] at hwithin
      rw [hread m rest crc hwithin.1 hwithin.2] at herr
      cases herr
    · intro hover
      have hfits : ¬m.Fits := by
        rw [m.fits_iff, maxModuleValues, maxModuleStringBytes]
        omega
      obtain ⟨e, hfails⟩ := m.decodesData.fails hfits
      have herr := hfails rest crc
      have hreturns := readModuleData_returns ⟨m.bytes ++ rest, crc⟩
      rw [herr] at hreturns
      cases e with
      | error err => exact ⟨err, herr⟩
      | panic => exact absurd hreturns id
      | diverge => exact absurd hreturns id

/-- Minus one in the widest form, a float, and a string that an LZF match expands to. -/
def sampleStream : ModuleStream where
  items := [
    .sint .one (.sixtyFour (2 ^ 64 - 1) (by decide)) LenForm.one_value,
    .float (.six 3 (by decide)) ⟨[0, 0, 0x80, 0x3F], rfl⟩ rfl,
    .string (.fourteen 5 (by decide)) (.lzf .four .four
      ⟨[.literal [97] (by decide), .copy 1 3 (by decide) (by decide)],
        ⟨trivial, Nat.le_refl 1, trivial⟩⟩ LenForm.four_value LenForm.four_value) rfl]
  eof := .zero
  eof_eq := LenForm.zero_value

theorem readModuleData_payloads_run :
    readModuleData.run ⟨[1, 0x81, 255, 255, 255, 255, 255, 255, 255, 255, 3, 0, 0, 0x80, 0x3F,
        0x40, 5, 0xC3, 4, 4, 0, 97, 0x20, 0, 0] ++ [9], 0⟩ =
      (.ok [.signedInt (-1), .float ⟨0x3F800000⟩, .string [97, 97, 97, 97]],
        ⟨[9], crc64 0 [1, 0x81, 255, 255, 255, 255, 255, 255, 255, 255, 3, 0, 0, 0x80, 0x3F,
          0x40, 5, 0xC3, 4, 4, 0, 97, 0x20, 0, 0]⟩) := by
  have hbytes : sampleStream.bytes = [1, 0x81, 255, 255, 255, 255, 255, 255, 255, 255, 3, 0, 0,
      0x80, 0x3F, 0x40, 5, 0xC3, 4, 4, 0, 97, 0x20, 0, 0] := by decide +kernel
  have hvalues : sampleStream.items.map ModuleItem.value =
      [.signedInt (-1), .float ⟨0x3F800000⟩, .string [97, 97, 97, 97]] := by decide +kernel
  have hread := readModuleData_payloads.2.1 sampleStream [9] 0 (by decide +kernel)
    (by decide +kernel)
  rw [hbytes, hvalues] at hread
  exact hread

end ValkeyRdb
