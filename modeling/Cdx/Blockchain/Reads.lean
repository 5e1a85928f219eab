import Cdx.Blockchain.SupplyBound

namespace cdx

/-! A read only loads the index of the storage, and nothing that is done later depends on it. -/

namespace CBlockchain

variable [Memory]

theorem Touched.to_touch {bc bc' : CBlockchain} (htouched : Touched bc bc') : Touched bc' bc.touch := by
  obtain rfl | rfl := htouched
  · exact Or.inr rfl
  · exact Or.inl rfl

variable [Crypto]

theorem getBlockByHeight_touch (bc : CBlockchain) (h : Nat) :
    bc.touch.getBlockByHeight h = ((bc.getBlockByHeight h).1, bc.touch) := by
  have htouched : Touched bc bc.touch := Or.inr rfl
  exact Prod.ext (htouched.getBlockByHeight_eq h) (getBlockByHeight_snd bc.touch h).of_touch

theorem collectFork_touch (count h : Nat) (bc : CBlockchain) :
    collectFork count h bc.touch = ((collectFork count h bc).1, bc.touch) := by
  induction count generalizing h bc with
  | zero => rfl
  | succ count ih =>
    -- Whether or not the first read touches the chain, the others find it touched.
    have hrest : ∀ mid, Touched bc mid →
        collectFork count (h + 1) bc.touch = ((collectFork count (h + 1) mid).1, bc.touch) := by
      intro mid hmid
      obtain rfl | rfl := hmid
      · exact ih (h + 1) mid
      · have htwice := ih (h + 1) bc.touch
        rwa [touch_touch] at htwice
    have hsnd := hrest (bc.getBlockByHeight h).2 (getBlockByHeight_snd bc h)
    rw [collectFork, collectFork, getBlockByHeight_touch]
    cases hread : bc.getBlockByHeight h with
    | mk found mid =>
      rw [hread] at hsnd
      cases found with
      | none => rfl
      | some blk =>
        simp only [hsnd]
        cases collectFork count (h + 1) mid with
        | mk rest last => cases rest <;> rfl

/-- `AcceptBlock` does the same after a read. -/
theorem acceptBlock_touch (params : ChainParams) (blk : CBlock) (height : Int) (bc : CBlockchain) :
    (∃ sum, acceptBlock params blk height bc.touch = .error sum ∧ acceptBlock params blk height bc = .error sum) ∨
      ∃ r bc' bc'', acceptBlock params blk height bc.touch = .ok (r, bc'') ∧
        acceptBlock params blk height bc = .ok (r, bc') ∧ Touched bc' bc'' := by
  have hstored : ∀ hash, bc.touch.storage.stored hash = bc.storage.stored hash :=
    fun hash => CBlockStorage.stored_loadIndex bc.storage hash
  have hview : bc.touch.chain = bc.chain := rfl
  have hindex : ∀ hash, bc.touch.getIndex hash = bc.getIndex hash := fun _ => rfl
  simp only [acceptBlock_eq, hstored, hindex, hview, firstTime_touch, touch_touch]
  split
  · exact Or.inr ⟨_, _, _, rfl, rfl, Or.inr rfl⟩
  split
  · exact Or.inr ⟨_, _, _, rfl, rfl, Or.inl rfl⟩
  split
  · exact Or.inr ⟨_, _, _, rfl, rfl, Or.inl rfl⟩
  split
  · exact Or.inr ⟨_, _, _, rfl, rfl, Or.inl rfl⟩
  split
  · exact Or.inr ⟨_, _, _, rfl, rfl, Or.inl rfl⟩
  · exact Or.inl ⟨_, rfl, rfl⟩
  · exact Or.inr ⟨_, _, _, rfl, rfl, Or.inl rfl⟩

end CBlockchain

variable [Crypto] [Memory]

open CBlockchain in
/-- `TryAcceptBlock` answers the same after a read, and leaves the same chain up to a read. -/
theorem Active.tryAcceptBlock_touch {params : ChainParams} {bc bc'' : CBlockchain} {blocks : List CBlock} {blk : CBlock}
    {r : ReorgResult} (hactive : Active params bc blocks) (haccept : tryAcceptBlock params blk bc.touch = .ok (r, bc'')) :
    ∃ bc', tryAcceptBlock params blk bc = .ok (r, bc') ∧ Touched bc' bc'' := by
  have hhave : bc.touch.haveBlock blk.getHash = bc.haveBlock blk.getHash := rfl
  have hindex : bc.touch.getIndex blk.header.prevBlockHash = bc.getIndex blk.header.prevBlockHash := rfl
  have htip : bc.touch.chain = bc.chain := rfl
  unfold tryAcceptBlock at haccept ⊢
  rw [hhave, hindex, htip] at haccept
  split at haccept
  next hknown =>
    cases haccept
    rw [if_pos hknown]
    exact ⟨bc, rfl, Or.inr rfl⟩
  next hunknown =>
  rw [if_neg hunknown]
  split at haccept
  · cases haccept
    exact ⟨bc, rfl, Or.inr rfl⟩
  next prevIdx hprev =>
  split at haccept
  next hparent =>
    rw [if_pos hparent]
    obtain ⟨sum, htouched, -⟩ | ⟨answer, mid, mid', htouched, hplain, hmid⟩ :=
      acceptBlock_touch params blk (prevIdx.height + 1) bc
    · rw [htouched] at haccept
      cases haccept
    · rw [htouched] at haccept
      rw [hplain]
      cases answer with
      | error message =>
        cases haccept
        exact ⟨mid, rfl, hmid⟩
      | ok _ =>
        cases haccept
        exact ⟨mid, rfl, hmid⟩
  next hparent =>
    rw [if_neg hparent]
    unfold acceptFork at haccept ⊢
    rw [htip] at haccept
    simp only [collectFork_touch] at haccept ⊢
    split at haccept
    next hwork =>
      cases haccept
      rw [if_pos hwork]
      exact ⟨bc, rfl, Or.inr rfl⟩
    next hwork =>
    rw [if_neg hwork]
    have hheight := hactive.heights _ _ hprev
    have hsnd := collectFork_snd (prevIdx.height + 1).toNat 0 bc
    cases hcollect : CBlockchain.collectFork (prevIdx.height + 1).toNat 0 bc with
    | mk collected mid =>
      rw [hcollect] at haccept hsnd
      cases collected with
      | error message =>
        cases haccept
        exact ⟨mid, rfl, hsnd.to_touch⟩
      | ok collected =>
        obtain ⟨-, -, rfl⟩ := hactive.collectFork (by omega) hcollect
        simp only at haccept ⊢
        split at haccept
        · cases haccept
          exact ⟨_, rfl, Or.inl rfl⟩
        · cases haccept
        · cases haccept
          exact ⟨_, rfl, Or.inl rfl⟩

end cdx
