import Cdx.Blockchain.Regtest

namespace cdx

section Supply

/-- A view that blocks below height `h` can have left. -/
structure Funded (h : Nat) (view : CCoinsView) : Prop where
  inRange : view.InRange
  total : view.totalValue ≤ subsidySum h

theorem funded_empty : Funded 0 .empty := ⟨CCoinsView.inRange_empty, le_refl _⟩

variable [Crypto]

theorem Funded.noOverflow {h : Nat} {view : CCoinsView} (hview : Funded h view) (blk : CBlock) (height : Int) :
    NoOverflow (checkBlock blk height view) :=
  checkBlock_noOverflow hview.inRange (le_trans hview.total (subsidySum_le h))

theorem Funded.checkBlock {h : Nat} {view view' : CCoinsView} (hview : Funded h view) {blk : CBlock} {fees : Int}
    (hcheck : checkBlock blk h view = .ok (view', fees)) : Funded (h + 1) view' := by
  obtain ⟨hrange, htotal⟩ := checkBlock_supply hcheck hview.inRange
  have hbefore := hview.total
  refine ⟨hrange, ?_⟩
  rw [subsidySum_succ]
  omega

/-- Replaying blocks adds at most the subsidies of their heights. -/
theorem Funded.replay {h : Nat} {view view' : CCoinsView} (hview : Funded h view) {blocks : List CBlock}
    (hreplay : replay h view blocks = .ok view') : Funded (h + blocks.length) view' := by
  induction blocks generalizing h view with
  | nil =>
    cases hreplay
    exact hview
  | cons blk rest ih =>
    obtain ⟨⟨mid, fees⟩, hcheck, hrest⟩ := bind_eq_ok_iff.mp hreplay
    have hlast := ih (hview.checkBlock hcheck) hrest
    rwa [List.length_cons, show h + (rest.length + 1) = h + 1 + rest.length by omega]

/-- The fork validation loop forms no overflowing sum, whatever blocks it is given. -/
theorem Funded.validateFork_noOverflow {h : Nat} {view : CCoinsView} (hview : Funded h view) (params : ChainParams)
    (blocks : List CBlock) (prev : Option CBlockHeader) (hashes : List UInt256) :
    NoOverflow (CBlockchain.validateFork params blocks prev h view hashes) := by
  induction blocks generalizing h view prev hashes with
  | nil => exact noOverflow_ok _
  | cons blk rest ih =>
    unfold CBlockchain.validateFork
    split
    · exact noOverflow_error _
    split
    · exact noOverflow_error _
    next sum hcheck => exact absurd hcheck (hview.noOverflow blk h sum)
    next outView fees hcheck => exact ih (hview.checkBlock hcheck) _ _

variable [Memory]

theorem Active.funded {params : ChainParams} {bc : CBlockchain} {blocks : List CBlock}
    (hactive : Active params bc blocks) : Funded blocks.length bc.chain.view := by
  have hfunded := funded_empty.replay hactive.replayed
  rwa [Nat.zero_add] at hfunded

/-- Validating the next block, by either path, never overflows. -/
theorem Active.noOverflow {params : ChainParams} {bc : CBlockchain} {blocks : List CBlock}
    (hactive : Active params bc blocks) (blk : CBlock) (sum : Sum64) :
    CBlockchain.tryAcceptBlock params blk bc ≠ .error sum := by
  intro haccept
  unfold CBlockchain.tryAcceptBlock at haccept
  split at haccept
  · cases haccept
  split at haccept
  · cases haccept
  next prevIdx hindex =>
  split at haccept
  · split at haccept
    next sum' hfailed =>
      exact CBlockchain.acceptBlock_ne_error (hactive.funded.noOverflow blk (prevIdx.height + 1)) sum' hfailed
    · cases haccept
    · cases haccept
  · unfold CBlockchain.acceptFork at haccept
    simp only at haccept
    split at haccept
    · cases haccept
    split at haccept
    · cases haccept
    next collected mid hcollect =>
      split at haccept
      · cases haccept
      next sum' hvalidate => exact funded_empty.validateFork_noOverflow params _ _ _ sum' hvalidate
      · cases haccept

/-- In every reachable state the coins are in range and worth at most the
    subsidies paid so far, and no sum over the next block overflows. -/
theorem reachable_supply {params : ChainParams} {bc : CBlockchain} (hreachable : Reachable params bc) :
    (∀ out coin, bc.chain.view.getCoin out = some coin → 0 ≤ coin.value.toInt ∧ coin.value.toInt ≤ MAX_MONEY) ∧
      bc.chain.view.totalValue ≤ getCumulativeSupplyAt (bc.chain.height + 1) ∧
      getCumulativeSupplyAt (bc.chain.height + 1) ≤ MAX_SUPPLY_BASE ∧
      ∀ (blk : CBlock) (sum : Sum64), CBlockchain.tryAcceptBlock params blk bc ≠ .error sum := by
  obtain ⟨blocks, hactive⟩ := hreachable.active
  have hfunded := hactive.funded
  have hheight : bc.chain.height + 1 = (blocks.length : Int) := by
    rw [hactive.height]
    omega
  rw [hheight, getCumulativeSupplyAt_eq]
  exact ⟨hfunded.inRange, hfunded.total, subsidySum_le _, hactive.noOverflow⟩

end Supply

section

attribute [local instance] toolCrypto zeroMemory

theorem supply_after_reorganisation : ∃ bc, regtestAfter [firstBlock, heavyBlock] = some bc ∧
    bc.chain.view.totalValue ≤ getCumulativeSupplyAt 2 ∧
    ∀ (blk : CBlock) (sum : Sum64), CBlockchain.tryAcceptBlock regtestParams blk bc ≠ .error sum := by
  obtain ⟨bc, hbc, -, hheight⟩ := regtestAfter_reorganised
  obtain ⟨-, htotal, -, hsums⟩ := reachable_supply (reachable_of_regtestAfter hbc)
  rw [hheight] at htotal
  exact ⟨bc, hbc, htotal, hsums⟩

end

end cdx
