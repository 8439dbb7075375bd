import ValkeyRdb.Format.Modules

/-!
# Module type IDs (reader.rs)

An ID of 64 bits is nine characters of six bits each and a version of ten. Nothing is left
over, so that IDs and names with a version are the same thing.
-/

namespace ValkeyRdb

/-- A name and a version packed into an ID, the first character on top. -/
def packModuleId (name : Bytes) (version : Nat) : Nat :=
  name.foldl (fun acc c => acc * 64 + moduleTypeNameCharset.idxOf c) 0 * 1024 + version

namespace ModuleName

/-! ### The charset -/

theorem idxOf_char : ∀ c : Fin 64, moduleTypeNameCharset.idxOf (char c) = c.val := by
  decide +kernel

theorem char_mem : ∀ c : Fin 64, char c ∈ moduleTypeNameCharset := by decide +kernel

theorem exists_char : ∀ b ∈ moduleTypeNameCharset, ∃ c : Fin 64, char c = b := by decide +kernel

/-! ### Names and their numbers -/

theorem packed_append (cs : List (Fin 64)) (c : Fin 64) :
    packed (cs ++ [c]) = packed cs * 64 + c.val := by
  rw [packed, List.foldl_append]
  rfl

theorem packed_lt (chars : List (Fin 64)) : packed chars < 64 ^ chars.length := by
  induction chars using List.reverseRecOn with
  | nil => decide
  | append_singleton cs c ih =>
    have hc := c.isLt
    rw [packed_append, List.length_append, List.length_singleton, Nat.pow_succ]
    omega

/-- Every number below `64 ^ k` is that of `k` characters. -/
theorem packed_surjective (k m : Nat) (h : m < 64 ^ k) :
    ∃ chars : List (Fin 64), chars.length = k ∧ packed chars = m := by
  induction k generalizing m with
  | zero =>
    rw [Nat.pow_zero] at h
    exact ⟨[], rfl, (Nat.lt_one_iff.mp h).symm⟩
  | succ k ih =>
    have hhigh : m / 64 < 64 ^ k := by
      rw [Nat.pow_succ] at h
      omega
    obtain ⟨cs, hlen, hpacked⟩ := ih (m / 64) hhigh
    refine ⟨cs ++ [⟨m % 64, Nat.mod_lt m (by decide)⟩], ?_, ?_⟩
    · rw [List.length_append, hlen, List.length_singleton]
    · rw [packed_append, hpacked]
      exact Nat.div_add_mod' m 64

theorem id_lt (n : ModuleName) : n.id < 2 ^ 64 := by
  have hchars := packed_lt n.chars
  have hv := n.version.isLt
  rw [n.length_eq] at hchars
  rw [id]
  omega

theorem id_surjective (id : Nat) (h : id < 2 ^ 64) : ∃ n : ModuleName, n.id = id := by
  obtain ⟨chars, hlen, hpacked⟩ := packed_surjective 9 (id / 1024) (by omega)
  refine ⟨⟨chars, ⟨id % 1024, Nat.mod_lt id (by decide)⟩, hlen⟩, ?_⟩
  rw [ModuleName.id, hpacked]
  exact Nat.div_add_mod' id 1024

theorem packModuleId_text (n : ModuleName) : packModuleId n.text n.version.val = n.id := by
  rw [packModuleId, text, List.foldl_map, id, packed]
  simp only [idxOf_char]

theorem exists_text (name : Bytes) (h : ∀ b ∈ name, b ∈ moduleTypeNameCharset) :
    ∃ chars : List (Fin 64), chars.map char = name := by
  induction name with
  | nil => exact ⟨[], rfl⟩
  | cons b name ih =>
    obtain ⟨c, hc⟩ := exists_char b (h b List.mem_cons_self)
    obtain ⟨cs, hcs⟩ := ih fun b' hb => h b' (List.mem_cons_of_mem b hb)
    exact ⟨c :: cs, by rw [List.map_cons, hc, hcs]⟩

end ModuleName

/-- Decoding an ID and packing a name are inverse to each other. -/
theorem decodeModuleId_bijective :
    (∀ id < 2 ^ 64, ∃ name version, decodeModuleId id = .ok (name, version) ∧ name.length = 9 ∧
      (∀ c ∈ name, c ∈ moduleTypeNameCharset) ∧ version < 1024 ∧ packModuleId name version = id) ∧
    (∀ (name : Bytes) (version : Nat), name.length = 9 → (∀ c ∈ name, c ∈ moduleTypeNameCharset) →
      version < 1024 → packModuleId name version < 2 ^ 64 ∧
        decodeModuleId (packModuleId name version) = .ok (name, version)) ∧
    (∀ id < 2 ^ 64, ∀ id' < 2 ^ 64, decodeModuleId id = decodeModuleId id' → id = id') := by
  have hdecode : ∀ id < 2 ^ 64, ∃ name version, decodeModuleId id = .ok (name, version) ∧
      name.length = 9 ∧ (∀ c ∈ name, c ∈ moduleTypeNameCharset) ∧ version < 1024 ∧
      packModuleId name version = id := by
    intro id hid
    obtain ⟨n, rfl⟩ := ModuleName.id_surjective id hid
    refine ⟨n.text, n.version.val, decodeModuleId_id n, ?_, fun c hc => ?_, n.version.isLt,
      n.packModuleId_text⟩
    · rw [ModuleName.text, List.length_map, n.length_eq]
    · obtain ⟨i, -, rfl⟩ := List.mem_map.mp hc
      exact ModuleName.char_mem i
  refine ⟨hdecode, fun name version hlen hmem hv => ?_, fun id hid id' hid' heq => ?_⟩
  · obtain ⟨chars, hchars⟩ := ModuleName.exists_text name hmem
    have hlen' : chars.length = 9 := by rw [← hlen, ← hchars, List.length_map]
    have hpack := ModuleName.packModuleId_text ⟨chars, ⟨version, hv⟩, hlen'⟩
    have htext : ModuleName.text ⟨chars, ⟨version, hv⟩, hlen'⟩ = name := hchars
    rw [htext] at hpack
    rw [hpack]
    refine ⟨ModuleName.id_lt _, ?_⟩
    rw [decodeModuleId_id, htext]
  · obtain ⟨name, version, hok, -, -, -, hpack⟩ := hdecode id hid
    obtain ⟨name', version', hok', -, -, -, hpack'⟩ := hdecode id' hid'
    rw [hok, hok'] at heq
    obtain ⟨rfl, rfl⟩ := Prod.mk.inj (Except.ok.inj heq)
    rw [← hpack, ← hpack']

/-- The least ID is "AAAAAAAAA" with version 0; the greatest is nine underscores with
version 1023. -/
theorem decodeModuleId_bijective_ends :
    packModuleId (List.replicate 9 65) 0 = 0 ∧
      decodeModuleId 0 = .ok (List.replicate 9 65, 0) ∧
      decodeModuleId (2 ^ 64 - 1) = .ok (List.replicate 9 95, 1023) := by
  have hleast := (decodeModuleId_bijective.2.1 (List.replicate 9 65) 0 (by decide)
    (by decide +kernel) (by decide)).2
  have hgreatest := (decodeModuleId_bijective.2.1 (List.replicate 9 95) 1023 (by decide)
    (by decide +kernel) (by decide)).2
  have hzero : packModuleId (List.replicate 9 65) 0 = 0 := by decide +kernel
  have hmax : packModuleId (List.replicate 9 95) 1023 = 2 ^ 64 - 1 := by decide +kernel
  rw [hzero] at hleast
  rw [hmax] at hgreatest
  exact ⟨hzero, hleast, hgreatest⟩

end ValkeyRdb
