import Mathlib

namespace orderedMap

open Std (ExtTreeMap LawfulEqCmp)

variable {κ ν : Type} [LinearOrder κ]

local instance lawfulEqCmp_compare : LawfulEqCmp (compare : κ → κ → Ordering) := ⟨fun h => compare_eq_iff_eq.mp h⟩

/-- Lookup after an insertion, by equality of keys. -/
theorem lookup_insert (m : ExtTreeMap κ ν) (k query : κ) (v : ν) :
    (m.insert k v)[query]? = if query = k then some v else m[query]? := by
  rw [ExtTreeMap.getElem?_insert]
  exact if_congr (compare_eq_iff_eq.trans eq_comm) rfl rfl

theorem mem_insert (m : ExtTreeMap κ ν) (k query : κ) (v : ν) : query ∈ m.insert k v ↔ query = k ∨ query ∈ m := by
  rw [ExtTreeMap.mem_insert, compare_eq_iff_eq, eq_comm]

theorem lookup_erase (m : ExtTreeMap κ ν) (k query : κ) :
    (m.erase k)[query]? = if query = k then none else m[query]? := by
  rw [ExtTreeMap.getElem?_erase]
  exact if_congr (compare_eq_iff_eq.trans eq_comm) rfl rfl

omit [LinearOrder κ] in
/-- Two tests of a key, one against a list and one against the key before it, are one. -/
theorem ite_mem_cons [DecidableEq κ] (query k : κ) (keys : List κ) (a b : ν) :
    (if query ∈ keys then a else if query = k then a else b) = if query ∈ k :: keys then a else b := by
  by_cases hkeys : query ∈ keys
  · rw [if_pos hkeys, if_pos (List.mem_cons_of_mem _ hkeys)]
  · rw [if_neg hkeys]
    exact if_congr (by rw [List.mem_cons, or_iff_left hkeys]) rfl rfl

/-- The sum of a weight over the values of a map, in key order. -/
def total (f : ν → Int) (m : ExtTreeMap κ ν) : Int := m.foldl (fun acc _ v => acc + f v) 0

omit [LinearOrder κ] in
private theorem foldl_add_eq (f : ν → Int) (entries : List (κ × ν)) (start : Int) :
    entries.foldl (fun acc entry => acc + f entry.2) start = start + (entries.map fun e => f e.2).sum := by
  induction entries generalizing start with
  | nil => simp
  | cons entry rest ih =>
    rw [List.foldl_cons, ih, List.map_cons, List.sum_cons]
    omega

theorem total_eq_sum (f : ν → Int) (m : ExtTreeMap κ ν) :
    total f m = (m.toList.map fun entry => f entry.2).sum := by
  rw [total, ExtTreeMap.foldl_eq_foldl_toList, foldl_add_eq, Int.zero_add]

/-- Any two entries of the list are found under two different keys. -/
theorem pairwise_toList (m : ExtTreeMap κ ν) :
    m.toList.Pairwise fun a b => m[a.1]? = some a.2 ∧ m[b.1]? = some b.2 ∧ a.1 ≠ b.1 := by
  refine m.distinct_keys_toList.imp_of_mem ?_
  intro a b ha hb hne
  refine ⟨ExtTreeMap.mem_toList_iff_getElem?_eq_some.mp ha, ExtTreeMap.mem_toList_iff_getElem?_eq_some.mp hb, ?_⟩
  rwa [compare_eq_iff_eq] at hne

theorem nodup_toList (m : ExtTreeMap κ ν) : m.toList.Nodup := by
  refine (pairwise_toList m).imp ?_
  rintro a b ⟨-, -, hne⟩ rfl
  exact hne rfl

/-- A map with one entry lists it alone. -/
theorem toList_insert_empty (k : κ) (v : ν) : ((∅ : ExtTreeMap κ ν).insert k v).toList = [(k, v)] := by
  have hlength : ((∅ : ExtTreeMap κ ν).insert k v).toList.length = 1 := by
    rw [ExtTreeMap.length_toList, ExtTreeMap.size_insert]
    simp
  have hmem : (k, v) ∈ ((∅ : ExtTreeMap κ ν).insert k v).toList := by
    rw [ExtTreeMap.mem_toList_iff_getElem?_eq_some, lookup_insert, if_pos rfl]
  obtain ⟨entry, hlist⟩ := List.length_eq_one_iff.mp hlength
  rw [hlist, List.mem_singleton] at hmem
  rw [hlist, hmem]

/-- The entries of a map are those left after an erasure and the erased one. -/
theorem toList_perm_cons_erase {m : ExtTreeMap κ ν} {k : κ} {v : ν} (hk : m[k]? = some v) :
    m.toList.Perm ((k, v) :: (m.erase k).toList) := by
  have hnotin : (k, v) ∉ (m.erase k).toList := by
    rw [ExtTreeMap.mem_toList_iff_getElem?_eq_some, lookup_erase, if_pos rfl]
    exact Option.some_ne_none v ∘ Eq.symm
  rw [List.perm_ext_iff_of_nodup (nodup_toList m) (List.nodup_cons.mpr ⟨hnotin, nodup_toList _⟩)]
  rintro ⟨k', v'⟩
  simp only [List.mem_cons, ExtTreeMap.mem_toList_iff_getElem?_eq_some, lookup_erase, Prod.mk.injEq]
  by_cases h : k' = k
  · subst h
    simp [hk, eq_comm]
  · simp [h]

theorem total_erase (f : ν → Int) {m : ExtTreeMap κ ν} {k : κ} {v : ν} (hk : m[k]? = some v) :
    total f (m.erase k) + f v = total f m := by
  have hperm := (toList_perm_cons_erase hk).map fun entry => f entry.2
  rw [total_eq_sum, total_eq_sum, hperm.sum_eq, List.map_cons, List.sum_cons]
  exact Int.add_comm _ _

/-- An insertion replaces the weight held at its key. -/
theorem total_insert (f : ν → Int) (m : ExtTreeMap κ ν) (k : κ) (v : ν) :
    total f (m.insert k v) = total f m - (m[k]?.map f).getD 0 + f v := by
  have hself : (m.insert k v)[k]? = some v := by rw [lookup_insert, if_pos rfl]
  have hagree : (m.insert k v).erase k = m.erase k := by
    apply ExtTreeMap.ext_getElem?
    intro query
    rw [lookup_erase, lookup_erase, lookup_insert]
    by_cases h : query = k <;> simp [h]
  have hinsert := total_erase f hself
  rw [hagree] at hinsert
  cases hk : m[k]? with
  | none =>
    have hsame : m.erase k = m := by
      apply ExtTreeMap.ext_getElem?
      intro query
      rw [lookup_erase]
      by_cases h : query = k <;> simp [h, hk]
    rw [hsame] at hinsert
    simp only [Option.map_none, Option.getD_none]
    omega
  | some old =>
    have herase := total_erase f hk
    simp only [Option.map_some, Option.getD_some]
    omega

theorem total_nonneg {f : ν → Int} {m : ExtTreeMap κ ν} (hf : ∀ (k : κ) (v : ν), m[k]? = some v → 0 ≤ f v) :
    0 ≤ total f m := by
  rw [total_eq_sum]
  apply List.sum_nonneg
  intro weight hweight
  obtain ⟨⟨k, v⟩, hentry, rfl⟩ := List.mem_map.mp hweight
  exact hf k v (ExtTreeMap.mem_toList_iff_getElem?_eq_some.mp hentry)

/-- Distinct entries of a map weigh no more than the whole map. -/
theorem sum_le_total {f : ν → Int} {m : ExtTreeMap κ ν} (hf : ∀ (k : κ) (v : ν), m[k]? = some v → 0 ≤ f v)
    {entries : List (κ × ν)} (hnodup : entries.Nodup) (hentries : ∀ e ∈ entries, m[e.1]? = some e.2) :
    (entries.map fun e => f e.2).sum ≤ total f m := by
  have hsubset : entries ⊆ m.toList := fun e he => ExtTreeMap.mem_toList_iff_getElem?_eq_some.mpr (hentries e he)
  obtain ⟨ordered, hperm, hsublist⟩ := hnodup.subperm hsubset
  have hnonneg : ∀ x ∈ m.toList.map fun e => f e.2, 0 ≤ x := by
    intro x hx
    obtain ⟨e, he, rfl⟩ := List.mem_map.mp hx
    exact hf e.1 e.2 (ExtTreeMap.mem_toList_iff_getElem?_eq_some.mp he)
  rw [total_eq_sum, ← (hperm.map fun e => f e.2).sum_eq]
  exact (hsublist.map fun e => f e.2).sum_le_sum hnonneg

theorem size_eq_card {m : ExtTreeMap κ ν} {keys : Finset κ} (hkeys : ∀ k, k ∈ m ↔ k ∈ keys) : m.size = keys.card := by
  have hnodup : m.keys.Nodup := by
    refine m.distinct_keys.imp ?_
    intro a b hne heq
    subst heq
    simp at hne
  have hset : m.keys.toFinset = keys := by
    ext k
    rw [List.mem_toFinset, ExtTreeMap.mem_keys, hkeys]
  rw [← ExtTreeMap.length_keys, ← hset, List.toFinset_card_of_nodup hnodup]

/-- A map whose keys are all in a list is no larger than the list. -/
theorem size_le_length {m : ExtTreeMap κ ν} {keys : List κ} (hkeys : ∀ k ∈ m, k ∈ keys) : m.size ≤ keys.length := by
  have hfilter : ∀ k, k ∈ m ↔ k ∈ keys.toFinset.filter (· ∈ m) := by
    intro k
    rw [Finset.mem_filter, List.mem_toFinset]
    exact ⟨fun hk => ⟨hkeys k hk, hk⟩, And.right⟩
  rw [size_eq_card hfilter]
  exact (Finset.card_filter_le _ _).trans (List.toFinset_card_le keys)

/-- Every entry of the first map is an entry of the second. -/
def Sub (m m' : ExtTreeMap κ ν) : Prop :=
  ∀ (k : κ) (v : ν), m[k]? = some v → m'[k]? = some v

def insertAll (entries : List (κ × ν)) (m : ExtTreeMap κ ν) : ExtTreeMap κ ν :=
  entries.foldl (fun m entry => m.insert entry.1 entry.2) m

private theorem insertAll_between {entries : List (κ × ν)} {m target : ExtTreeMap κ ν} (hm : Sub m target)
    (hentries : ∀ entry ∈ entries, target[entry.1]? = some entry.2) :
    Sub m (insertAll entries m) ∧ Sub (insertAll entries m) target ∧
      ∀ entry ∈ entries, (insertAll entries m)[entry.1]? = some entry.2 := by
  induction entries generalizing m with
  | nil => exact ⟨fun _ _ h => h, hm, by simp⟩
  | cons entry rest ih =>
    have hnext : Sub (m.insert entry.1 entry.2) target := by
      intro k v hk
      rw [lookup_insert] at hk
      by_cases hkey : k = entry.1
      · subst hkey
        rw [if_pos rfl] at hk
        cases hk
        exact hentries entry List.mem_cons_self
      · rw [if_neg hkey] at hk
        exact hm k v hk
    obtain ⟨hkeeps, hbelow, hin⟩ := ih hnext fun e he => hentries e (List.mem_cons_of_mem _ he)
    refine ⟨?_, hbelow, ?_⟩
    · intro k v hk
      apply hkeeps
      rw [lookup_insert]
      by_cases hkey : k = entry.1
      · subst hkey
        rw [if_pos rfl]
        exact (hentries entry List.mem_cons_self).symm.trans (hm _ _ hk)
      · rw [if_neg hkey]
        exact hk
    · intro e he
      rcases List.mem_cons.mp he with rfl | hrest
      · apply hkeeps
        rw [lookup_insert, if_pos rfl]
      · exact hin e hrest

/-- Inserting the entries of a map into any part of it gives the map back. -/
theorem insertAll_toList {m target : ExtTreeMap κ ν} (hm : Sub m target) :
    insertAll target.toList m = target := by
  obtain ⟨-, hbelow, hin⟩ := insertAll_between hm
    fun entry hentry => ExtTreeMap.mem_toList_iff_getElem?_eq_some.mp hentry
  apply ExtTreeMap.ext_getElem?
  intro k
  cases hk : target[k]? with
  | some v => exact hin (k, v) (ExtTreeMap.mem_toList_iff_getElem?_eq_some.mpr hk)
  | none =>
    cases hr : (insertAll target.toList m)[k]? with
    | none => rfl
    | some v => exact absurd (hbelow k v hr) (by simp [hk])

end orderedMap
