import Mathlib

namespace ledger

/-- An entry of a ledger takes outputs of earlier entries and makes outputs of its own. -/
structure Entry (ι κ : Type) where
  id : ι
  ins : List κ
  outs : Set κ

variable {ι κ : Type}

/-- The unspent outputs after an entry. -/
def apply (unspent : Set κ) (entry : Entry ι κ) : Set κ := (unspent \ {k | k ∈ entry.ins}) ∪ entry.outs

/-- A history in which every entry has its own identity: what is unspent was never
    spent, and nothing is spent twice. -/
structure Sound (owner : κ → ι) (history : List (Entry ι κ)) (unspent : Set κ) : Prop where
  ids : (history.map Entry.id).Nodup
  unspent_owned : ∀ k ∈ unspent, owner k ∈ history.map Entry.id
  spent_owned : ∀ k ∈ history.flatMap Entry.ins, owner k ∈ history.map Entry.id
  not_spent : ∀ k ∈ unspent, k ∉ history.flatMap Entry.ins
  once : (history.flatMap Entry.ins).Nodup

theorem sound_nil (owner : κ → ι) : Sound owner [] ∅ where
  ids := List.nodup_nil
  unspent_owned := by simp
  spent_owned := by simp
  not_spent := by simp
  once := List.nodup_nil

variable {owner : κ → ι} {history : List (Entry ι κ)} {unspent : Set κ} {entry : Entry ι κ}

/-- The outputs of an entry with a new identity are new themselves. -/
theorem Sound.outs_new (hsound : Sound owner history unspent) (howner : ∀ k ∈ entry.outs, owner k = entry.id)
    (hfresh : entry.id ∉ history.map Entry.id) :
    ∀ k ∈ entry.outs, k ∉ unspent ∧ k ∉ history.flatMap Entry.ins := by
  intro k hk
  rw [← howner k hk] at hfresh
  exact ⟨fun hunspent => hfresh (hsound.unspent_owned k hunspent), fun hspent => hfresh (hsound.spent_owned k hspent)⟩

/-- An entry with a new identity that takes unspent outputs keeps the history sound. -/
theorem Sound.step (hsound : Sound owner history unspent) (hins : entry.ins.Nodup)
    (hfound : ∀ k ∈ entry.ins, k ∈ unspent) (howner : ∀ k ∈ entry.outs, owner k = entry.id)
    (hfresh : entry.id ∉ history.map Entry.id) : Sound owner (history ++ [entry]) (apply unspent entry) := by
  have hids : ∀ {i}, i ∈ history.map Entry.id → i ∈ (history ++ [entry]).map Entry.id := by
    intro i hi
    rw [List.map_append]
    exact List.mem_append_left _ hi
  have hself : entry.id ∈ (history ++ [entry]).map Entry.id := by simp
  have hspends : (history ++ [entry]).flatMap Entry.ins = history.flatMap Entry.ins ++ entry.ins := by simp
  refine ⟨?_, ?_, ?_, ?_, ?_⟩
  · rw [List.map_append, List.map_singleton]
    exact List.nodup_append.mpr ⟨hsound.ids, List.nodup_singleton _, by
      rintro i hi j hj rfl
      exact hfresh (List.mem_singleton.mp hj ▸ hi)⟩
  · rintro k (⟨hk, -⟩ | hk)
    · exact hids (hsound.unspent_owned k hk)
    · rw [howner k hk]
      exact hself
  · intro k hk
    rw [hspends, List.mem_append] at hk
    rcases hk with hk | hk
    · exact hids (hsound.spent_owned k hk)
    · exact hids (hsound.unspent_owned k (hfound k hk))
  · intro k hk
    rw [hspends, List.mem_append, not_or]
    rcases hk with ⟨hk, hkept⟩ | hk
    · exact ⟨hsound.not_spent k hk, hkept⟩
    · obtain ⟨hnew, hnotSpent⟩ := hsound.outs_new howner hfresh k hk
      exact ⟨hnotSpent, fun hin => hnew (hfound k hin)⟩
  · rw [hspends]
    refine List.nodup_append.mpr ⟨hsound.once, hins, ?_⟩
    rintro k hk k' hk' rfl
    exact hsound.not_spent k (hfound k hk') hk

/-- An entry that takes something unspent is new, if equal identities mean equal
    inputs: a copy of an earlier entry would spend again what that one spent. -/
theorem Sound.id_fresh (hsound : Sound owner history unspent) (hne : entry.ins ≠ [])
    (hfound : ∀ k ∈ entry.ins, k ∈ unspent) (hcopy : ∀ old ∈ history, old.id = entry.id → old.ins = entry.ins) :
    entry.id ∉ history.map Entry.id := by
  intro hseen
  obtain ⟨old, hold, hid⟩ := List.mem_map.mp hseen
  obtain ⟨k, hk⟩ := List.exists_mem_of_ne_nil _ hne
  apply hsound.not_spent k (hfound k hk)
  rw [List.mem_flatMap]
  exact ⟨old, hold, by rw [hcopy old hold hid]; exact hk⟩

end ledger
