import Mathlib.Data.List.Lex
import Mathlib.Data.List.Sort
import Mathlib.Order.Defs.LinearOrder
import ValkeyRdb.Lib.Bytes

/-!
# Maps ordered by key

An association list whose keys strictly increase, with the one update everything else
is an instance of: `upsert`, which inserts a key or changes its value.
-/

namespace ValkeyRdb

instance instLinearOrderUInt8 : LinearOrder UInt8 where
  le_refl := UInt8.le_refl
  le_trans _ _ _ := UInt8.le_trans
  le_antisymm _ _ := UInt8.le_antisymm
  le_total := UInt8.le_total
  lt_iff_le_not_ge a b := by
    rw [UInt8.lt_iff_toNat_lt, UInt8.le_iff_toNat_le, UInt8.le_iff_toNat_le]
    omega
  toDecidableLE := inferInstance
  min_def _ _ := rfl
  max_def _ _ := rfl

/-- A finite map with strictly increasing keys. -/
structure SortedMap (κ ν : Type) [LinearOrder κ] where
  entries : List (κ × ν)
  sorted : entries.Pairwise (fun a b => a.1 < b.1)

namespace SortedMap

variable {κ ν : Type} [LinearOrder κ]

theorem ext {m m' : SortedMap κ ν} (h : m.entries = m'.entries) : m = m' := by
  cases m
  cases m'
  cases h
  rfl

instance [DecidableEq ν] : DecidableEq (SortedMap κ ν) := fun m m' =>
  decidable_of_iff (m.entries = m'.entries) ⟨ext, fun h => h ▸ rfl⟩

def empty : SortedMap κ ν := ⟨[], List.Pairwise.nil⟩

instance : Inhabited (SortedMap κ ν) := ⟨empty⟩

/-- The value of the first entry with key `k`. -/
def lookup (k : κ) : List (κ × ν) → Option ν
  | [] => none
  | (k', v) :: rest => if k = k' then some v else lookup k rest

def get? (m : SortedMap κ ν) (k : κ) : Option ν := lookup k m.entries

def contains (m : SortedMap κ ν) (k : κ) : Bool := (m.get? k).isSome

/-- Sets the entry of `k` to `f` of its old value, keeping the order. -/
def upsertList (k : κ) (f : Option ν → ν) : List (κ × ν) → List (κ × ν)
  | [] => [(k, f none)]
  | (k', v) :: rest =>
    if k < k' then (k, f none) :: (k', v) :: rest
    else if k = k' then (k, f (some v)) :: rest
    else (k', v) :: upsertList k f rest

theorem mem_upsertList {k : κ} {f : Option ν → ν} {es : List (κ × ν)} {e : κ × ν}
    (h : e ∈ upsertList k f es) : e.1 = k ∨ e ∈ es := by
  induction es with
  | nil =>
    simp only [upsertList, List.mem_singleton] at h
    exact Or.inl (congrArg Prod.fst h)
  | cons e' rest ih =>
    obtain ⟨k', v⟩ := e'
    rw [upsertList] at h
    split at h
    · rcases List.mem_cons.mp h with rfl | h
      · exact Or.inl rfl
      · exact Or.inr h
    · split at h
      · rcases List.mem_cons.mp h with rfl | h
        · exact Or.inl rfl
        · exact Or.inr (List.mem_cons_of_mem _ h)
      · rcases List.mem_cons.mp h with rfl | h
        · exact Or.inr List.mem_cons_self
        · exact (ih h).imp id (List.mem_cons_of_mem _)

theorem upsertList_sorted (k : κ) (f : Option ν → ν) {es : List (κ × ν)}
    (h : es.Pairwise (fun a b => a.1 < b.1)) :
    (upsertList k f es).Pairwise (fun a b => a.1 < b.1) := by
  induction es with
  | nil => exact List.pairwise_singleton _ _
  | cons e' rest ih =>
    obtain ⟨k', v⟩ := e'
    obtain ⟨hhead, htail⟩ := List.pairwise_cons.mp h
    rw [upsertList]
    split
    · rename_i hlt
      refine List.pairwise_cons.mpr ⟨fun e he => ?_, h⟩
      rcases List.mem_cons.mp he with rfl | he
      · exact hlt
      · exact lt_trans hlt (hhead e he)
    · rename_i hlt
      split
      · rename_i heq
        subst heq
        exact List.pairwise_cons.mpr ⟨hhead, htail⟩
      · rename_i hne
        refine List.pairwise_cons.mpr ⟨fun e he => ?_, ih htail⟩
        rcases mem_upsertList he with hk | he
        · rw [hk]
          exact lt_of_le_of_ne (not_lt.mp hlt) (Ne.symm hne)
        · exact hhead e he

def upsert (m : SortedMap κ ν) (k : κ) (f : Option ν → ν) : SortedMap κ ν :=
  ⟨upsertList k f m.entries, upsertList_sorted k f m.sorted⟩

def insert (m : SortedMap κ ν) (k : κ) (v : ν) : SortedMap κ ν := m.upsert k fun _ => v

@[simp] theorem get?_empty (k : κ) : (empty : SortedMap κ ν).get? k = none := rfl

theorem lookup_eq_none_of_lt {k : κ} {es : List (κ × ν)} (h : ∀ e ∈ es, k < e.1) :
    lookup k es = none := by
  induction es with
  | nil => rfl
  | cons e rest ih =>
    have hk := h e List.mem_cons_self
    rw [lookup, if_neg (ne_of_lt hk)]
    exact ih fun e he => h e (List.mem_cons_of_mem _ he)

theorem get?_upsert_self (m : SortedMap κ ν) (k : κ) (f : Option ν → ν) :
    (m.upsert k f).get? k = some (f (m.get? k)) := by
  obtain ⟨es, hs⟩ := m
  change lookup k (upsertList k f es) = some (f (lookup k es))
  induction es with
  | nil => exact if_pos rfl
  | cons e rest ih =>
    obtain ⟨k', v⟩ := e
    obtain ⟨hhead, htail⟩ := List.pairwise_cons.mp hs
    rw [upsertList]
    split
    · rename_i hlt
      have hnone : lookup k rest = none :=
        lookup_eq_none_of_lt fun e he => lt_trans hlt (hhead e he)
      rw [lookup, if_pos rfl, lookup, if_neg (ne_of_lt hlt), hnone]
    · split
      · rename_i heq
        rw [lookup, if_pos rfl, lookup, if_pos heq]
      · rename_i hne
        rw [lookup, if_neg hne, lookup, if_neg hne]
        exact ih htail

theorem get?_upsert_of_ne (m : SortedMap κ ν) {k k' : κ} (f : Option ν → ν) (h : k' ≠ k) :
    (m.upsert k f).get? k' = m.get? k' := by
  obtain ⟨es, hs⟩ := m
  change lookup k' (upsertList k f es) = lookup k' es
  induction es with
  | nil => exact if_neg h
  | cons e rest ih =>
    obtain ⟨k₀, v⟩ := e
    rw [upsertList]
    split
    · rw [lookup, if_neg h]
    · split
      · rename_i heq
        subst heq
        rw [lookup, if_neg h, lookup, if_neg h]
      · rw [lookup, lookup, ih (List.pairwise_cons.mp hs).2]

theorem get?_insert_self (m : SortedMap κ ν) (k : κ) (v : ν) : (m.insert k v).get? k = some v :=
  m.get?_upsert_self k fun _ => v

theorem get?_insert_of_ne (m : SortedMap κ ν) {k k' : κ} (v : ν) (h : k' ≠ k) :
    (m.insert k v).get? k' = m.get? k' := m.get?_upsert_of_ne _ h

theorem contains_upsert (m : SortedMap κ ν) (k k' : κ) (f : Option ν → ν) :
    (m.upsert k f).contains k' = true ↔ k' = k ∨ m.contains k' = true := by
  unfold contains
  by_cases h : k' = k
  · subst h
    simp [get?_upsert_self]
  · simp [get?_upsert_of_ne m f h, h]

theorem contains_insert (m : SortedMap κ ν) (k k' : κ) (v : ν) :
    (m.insert k v).contains k' = true ↔ k' = k ∨ m.contains k' = true :=
  m.contains_upsert k k' fun _ => v

theorem contains_iff_mem_keys (m : SortedMap κ ν) (k : κ) :
    m.contains k = true ↔ k ∈ m.entries.map Prod.fst := by
  obtain ⟨es, hs⟩ := m
  change (lookup k es).isSome = true ↔ k ∈ es.map Prod.fst
  clear hs
  induction es with
  | nil => simp [lookup]
  | cons e rest ih =>
    obtain ⟨k', v⟩ := e
    by_cases h : k = k'
    · simp [lookup, h]
    · simp only [lookup, List.map_cons, List.mem_cons, h, false_or]
      exact ih

theorem get?_of_mem {m : SortedMap κ ν} {k : κ} {v : ν} (h : (k, v) ∈ m.entries) :
    m.get? k = some v := by
  obtain ⟨es, hs⟩ := m
  change lookup k es = some v
  induction es with
  | nil => cases h
  | cons e rest ih =>
    obtain ⟨k', v'⟩ := e
    obtain ⟨hhead, htail⟩ := List.pairwise_cons.mp hs
    rcases List.mem_cons.mp h with he | hm
    · cases he
      exact if_pos rfl
    · rw [lookup, if_neg (ne_of_gt (hhead (k, v) hm))]
      exact ih htail hm

/-- The entries of a map, by a list of all keys in their order. -/
theorem entries_eq (m : SortedMap κ ν) {all : List κ}
    (hsorted : all.Pairwise (· < ·)) (hall : ∀ k, k ∈ all) :
    m.entries = all.filterMap fun k => (m.get? k).map fun v => (k, v) := by
  have hkeys : m.entries.map Prod.fst = all.filter m.contains := by
    apply List.Pairwise.eq_of_mem_iff (List.pairwise_map.mpr m.sorted) (hsorted.filter _)
    intro k
    rw [← contains_iff_mem_keys, List.mem_filter]
    simp [hall k]
  have hown : (m.entries.map Prod.fst).filterMap (fun k => (m.get? k).map fun v => (k, v)) =
      m.entries := by
    rw [List.filterMap_map]
    have hsome : ∀ e ∈ m.entries, ((fun k => (m.get? k).map fun v => (k, v)) ∘ Prod.fst) e = some e := by
      rintro ⟨k, v⟩ he
      simp [get?_of_mem he]
    rw [List.filterMap_congr hsome, List.filterMap_some]
  rw [← hown, hkeys, List.filterMap_filter]
  apply List.filterMap_congr
  intro k _
  unfold contains
  cases m.get? k <;> simp

section MapValues

variable {μ : Type}

/-- The map with every value changed by `f`. -/
def mapValues (f : ν → μ) (m : SortedMap κ ν) : SortedMap κ μ :=
  ⟨m.entries.map fun e => (e.1, f e.2), List.pairwise_map.mpr m.sorted⟩

theorem get?_mapValues (f : ν → μ) (m : SortedMap κ ν) (k : κ) :
    (m.mapValues f).get? k = (m.get? k).map f := by
  obtain ⟨es, hs⟩ := m
  change lookup k (es.map fun e => (e.1, f e.2)) = (lookup k es).map f
  clear hs
  induction es with
  | nil => rfl
  | cons e rest ih =>
    obtain ⟨k', v⟩ := e
    by_cases h : k = k'
    · simp [lookup, h]
    · simp only [List.map_cons, lookup, if_neg h]
      exact ih

theorem mapValues_insert (f : ν → μ) (m : SortedMap κ ν) (k : κ) (v : ν) :
    (m.insert k v).mapValues f = (m.mapValues f).insert k (f v) := by
  obtain ⟨es, hs⟩ := m
  apply ext
  change (upsertList k (fun _ => v) es).map (fun e => (e.1, f e.2)) =
    upsertList k (fun _ => f v) (es.map fun e => (e.1, f e.2))
  clear hs
  induction es with
  | nil => rfl
  | cons e rest ih =>
    obtain ⟨k', v'⟩ := e
    simp only [upsertList, List.map_cons]
    split
    · rfl
    · split
      · rfl
      · rw [List.map_cons, ih]

end MapValues

/-- An update that adds `d` to the quantity of its key adds `d` there and nothing elsewhere. -/
theorem get?_upsert_add {f : Option ν → Nat} {k : κ} {g : Option ν → ν} {d : Nat}
    (h : ∀ old, f (some (g old)) = f old + d) (m : SortedMap κ ν) (k' : κ) [Decidable (k' = k)] :
    f ((m.upsert k g).get? k') = f (m.get? k') + if k' = k then d else 0 := by
  by_cases hk : k' = k
  · subst hk
    rw [get?_upsert_self, h, if_pos rfl]
  · rw [get?_upsert_of_ne _ _ hk, if_neg hk, Nat.add_zero]

/-! ### Sums over a map -/

/-- The sum of a quantity over the entries. -/
def sumBy (f : κ → ν → Nat) (m : SortedMap κ ν) : Nat := (m.entries.map fun e => f e.1 e.2).sum

/-- An update takes the quantity of the old value out and that of the new one in. -/
theorem sumBy_upsert (f : κ → ν → Nat) (m : SortedMap κ ν) (k : κ) (g : Option ν → ν) :
    (m.upsert k g).sumBy f + (m.get? k).elim 0 (f k) = m.sumBy f + f k (g (m.get? k)) := by
  obtain ⟨es, hs⟩ := m
  change ((upsertList k g es).map fun e => f e.1 e.2).sum + (lookup k es).elim 0 (f k) =
    (es.map fun e => f e.1 e.2).sum + f k (g (lookup k es))
  induction es with
  | nil => simp [upsertList, lookup]
  | cons e rest ih =>
    obtain ⟨k', v⟩ := e
    obtain ⟨hhead, htail⟩ := List.pairwise_cons.mp hs
    rw [upsertList]
    split
    · rename_i hlt
      have hnone : lookup k ((k', v) :: rest) = none := by
        refine lookup_eq_none_of_lt fun e he => ?_
        rcases List.mem_cons.mp he with rfl | he
        · exact hlt
        · exact lt_trans hlt (hhead e he)
      rw [hnone, List.map_cons, List.sum_cons]
      simp only [Option.elim_none]
      omega
    · split
      · rename_i heq
        subst heq
        rw [lookup, if_pos rfl, List.map_cons, List.map_cons, List.sum_cons, List.sum_cons]
        simp only [Option.elim_some]
        omega
      · rename_i hne
        have hrest := ih htail
        rw [lookup, if_neg hne, List.map_cons, List.map_cons, List.sum_cons, List.sum_cons]
        omega

/-- An update that adds `d` to the quantity of its key adds `d` to the sum. -/
theorem sumBy_upsert_add {f : κ → ν → Nat} {k : κ} {g : Option ν → ν} {d : Nat}
    (h : ∀ old, f k (g old) = old.elim 0 (f k) + d) (m : SortedMap κ ν) :
    (m.upsert k g).sumBy f = m.sumBy f + d := by
  have hsum := m.sumBy_upsert f k g
  rw [h] at hsum
  omega

end SortedMap

end ValkeyRdb
