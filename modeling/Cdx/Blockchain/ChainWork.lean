import Cdx.Blockchain.Connect

namespace cdx

/-- The work of a list of blocks as a natural number. -/
def workSum (blocks : List CBlock) : Nat := (blocks.map fun blk => (getBlockWork blk.header.bits).toNat).sum

theorem workSum_append (xs ys : List CBlock) : workSum (xs ++ ys) = workSum xs + workSum ys := by
  simp [workSum]

/-- The index adds the work of a chain up modulo `2 ^ 256`. -/
theorem toNat_chainWorkOf (blocks : List CBlock) : (chainWorkOf blocks).toNat = workSum blocks % 2 ^ 256 := by
  induction blocks using List.reverseRecOn with
  | nil => rfl
  | append_singleton xs blk ih =>
    rw [chainWorkOf_snoc, UInt256.add_toNat, ih, workSum_append, Nat.mod_add_mod]
    simp [workSum]

section Tracking

variable [Crypto] [Memory]

/-- The recorded chain work is that of the tip's index entry, and the work of the
    active chain. -/
structure WorkTracked (bc : CBlockchain) : Prop where
  index : ∃ entry, bc.getIndex bc.chain.tipHash = some entry ∧ bc.chain.chainWork = entry.chainWork
  sum : ∃ blocks, bc.readChain = some blocks ∧ bc.chain.chainWork.toNat = workSum blocks % 2 ^ 256

/-- The active chain of the second state has at least the work of the first one's. -/
def NotLighter (bc bc' : CBlockchain) : Prop :=
  ∃ blocks blocks', bc.readChain = some blocks ∧ bc'.readChain = some blocks' ∧ workSum blocks ≤ workSum blocks'

theorem Active.workTracked_iff {params : ChainParams} {bc : CBlockchain} {blocks : List CBlock}
    (hactive : Active params bc blocks) : WorkTracked bc ↔ bc.chain.chainWork = chainWorkOf blocks := by
  obtain ⟨last, hlast, htip⟩ := hactive.tip
  have hentry := hactive.last_indexed hlast
  rw [← htip] at hentry
  constructor
  · rintro ⟨⟨entry, hfound, hwork⟩, -⟩
    rw [hentry] at hfound
    cases hfound
    exact hwork
  · intro hwork
    refine ⟨⟨_, hentry, hwork⟩, blocks, hactive.readChain, ?_⟩
    rw [hwork, toNat_chainWorkOf]

/-- Of all deliveries only a reorganisation loses track of the work: the node keeps
    the number that the fork has just beaten. -/
theorem Active.workTracked_deliver_iff {params : ChainParams} {bc bc' : CBlockchain} {blocks : List CBlock}
    {blk : CBlock} (hactive : Active params bc blocks) (htracked : WorkTracked bc)
    (hdeliver : CBlockchain.deliver params bc blk = some bc') :
    WorkTracked bc' ↔ ¬ Reorganises params bc blk := by
  constructor
  · rintro htracked' ⟨blocks', forkHeight, hfork⟩
    obtain rfl : blocks = blocks' := Option.some.inj (hactive.readChain.symm.trans hfork.active)
    obtain ⟨hactive', hrecorded⟩ := hactive.forked hfork hdeliver
    have hwork := hfork.work
    rw [← hactive'.workTracked_iff.mp htracked', hrecorded] at hwork
    exact lt_irrefl _ hwork
  · intro hsteady
    obtain ⟨blocks', hstep, hactive'⟩ := hactive.deliver hdeliver
    rw [hactive'.workTracked_iff]
    rw [hactive.workTracked_iff] at htracked
    cases hstep with
    | kept htouched => rw [htouched.chain_eq, htracked]
    | extended hunknown hlast hheader hbits hcheck hresult =>
      rw [hresult, CBlockchain.applyBlock_chain, chainWorkOf_snoc]
      rfl
    | reorganised hunknown hparent hbelow hgenesis hheader hreplay hwork hresult =>
      exact absurd ⟨_, _, hactive.forkAt hunknown hparent hbelow hgenesis hheader hreplay hwork⟩ hsteady

/-- A delivery that does not reorganise never makes the active chain lighter. -/
theorem Active.notLighter {params : ChainParams} {bc bc' : CBlockchain} {blocks : List CBlock} {blk : CBlock}
    (hactive : Active params bc blocks) (hsteady : ¬ Reorganises params bc blk)
    (hdeliver : CBlockchain.deliver params bc blk = some bc') : NotLighter bc bc' := by
  obtain ⟨blocks', hstep, hactive'⟩ := hactive.deliver hdeliver
  refine ⟨blocks, blocks', hactive.readChain, hactive'.readChain, ?_⟩
  cases hstep with
  | kept htouched => exact le_refl _
  | extended hunknown hlast hheader hbits hcheck hresult =>
    rw [workSum_append]
    exact Nat.le_add_right _ _
  | reorganised hunknown hparent hbelow hgenesis hheader hreplay hwork hresult =>
    exact absurd ⟨_, _, hactive.forkAt hunknown hparent hbelow hgenesis hheader hreplay hwork⟩ hsteady

/-- The chain work is tracked in every state of a run, and no call makes the active
    chain lighter, exactly when no delivery of the run reorganises the chain. -/
theorem run_workTracked_iff {params : ChainParams} {start final : CBlockchain} {events : List CBlock}
    (hfresh : CBlockchain.fresh params = some start)
    (hrun : transition.run (CBlockchain.deliver params) start events = some final) :
    ((∀ bc, transition.Visits (CBlockchain.deliver params) start events bc → WorkTracked bc) ∧
      ∀ bc blk bc', transition.Takes (CBlockchain.deliver params) start events bc blk →
        CBlockchain.deliver params bc blk = some bc' → NotLighter bc bc') ↔
      ∀ bc blk, transition.Takes (CBlockchain.deliver params) start events bc blk → ¬ Reorganises params bc blk := by
  obtain ⟨g, view, fees, -, -, hstart, hactive⟩ := fresh_active hfresh
  have htracked : WorkTracked start := by
    rw [hactive.workTracked_iff, hstart, chainWorkOf_singleton]
    rfl
  have hiff := transition.visits_iff_takes (I := fun bc => ∃ blocks, Active params bc blocks) (P := WorkTracked)
    (fun bc blk bc' _ hbc _ hdeliver => active_deliver hbc hdeliver)
    (fun bc blk bc' _ ⟨_, hbc⟩ hold hdeliver => hbc.workTracked_deliver_iff hold hdeliver)
    ⟨[g], hactive⟩ htracked hrun
  rw [← hiff]
  constructor
  · exact And.left
  · intro hall
    refine ⟨hall, ?_⟩
    intro bc blk bc' htakes hdeliver
    obtain ⟨blocks, hbc⟩ := transition.visits_invariant (I := fun bc => ∃ blocks, Active params bc blocks)
      (fun bc blk bc' hbc hdeliver => active_deliver hbc hdeliver) ⟨[g], hactive⟩ (transition.visits_of_takes htakes)
    exact hbc.notLighter (hiff.mp hall bc blk htakes) hdeliver

end Tracking

section

attribute [local instance] toolCrypto zeroMemory

theorem run_workTracked_first : ∃ start final, CBlockchain.fresh regtestParams = some start ∧
    transition.run (CBlockchain.deliver regtestParams) start [firstBlock] = some final ∧
    (∀ bc, transition.Visits (CBlockchain.deliver regtestParams) start [firstBlock] bc → WorkTracked bc) ∧
      ∀ bc blk bc', transition.Takes (CBlockchain.deliver regtestParams) start [firstBlock] bc blk →
        CBlockchain.deliver regtestParams bc blk = some bc' → NotLighter bc bc' := by
  obtain ⟨start, final, hfresh, hrun⟩ := regtestAfter_extended
  refine ⟨start, final, hfresh, hrun, (run_workTracked_iff hfresh hrun).mpr ?_⟩
  rintro bc blk (⟨rfl, rfl⟩ | ⟨next, -, htakes⟩)
  · exact fresh_not_reorganises hfresh firstBlock
  · cases htakes

/-- The node moves from the first block to the heavy one without recording its
    work, and then from there to a chain of less work than it has. -/
theorem workTracked_fails_after_reorganisation : ∃ bc bc', regtestAfter [firstBlock, heavyBlock] = some bc ∧
    ¬ WorkTracked bc ∧ CBlockchain.deliver regtestParams bc middleBlock = some bc' ∧ ¬ NotLighter bc bc' := by
  have hevaluated : ((regtestAfter [firstBlock, heavyBlock]).bind fun bc =>
      (CBlockchain.deliver regtestParams bc middleBlock).map fun bc' =>
        ((bc.chain.chainWork.toNat, bc.readChain.map workSum), bc'.readChain.map workSum)) =
          some ((4, some 258), some 6) := by
    rw [← tableCrypto_eq digests_right]
    decide +kernel
  obtain ⟨bc, hbc, hdelivered⟩ := Option.bind_eq_some_iff.mp hevaluated
  obtain ⟨bc', hbc', hvalues⟩ := Option.map_eq_some_iff.mp hdelivered
  simp only [Prod.mk.injEq, Option.map_eq_some_iff] at hvalues
  obtain ⟨⟨hrecorded, blocks, hblocks, hsum⟩, blocks', hblocks', hsum'⟩ := hvalues
  refine ⟨bc, bc', hbc, ?_, hbc', ?_⟩
  · rintro ⟨-, other, hother, hwork⟩
    rw [hblocks, Option.some.injEq] at hother
    rw [hrecorded, ← hother, hsum] at hwork
    omega
  · rintro ⟨other, other', hother, hother', hle⟩
    rw [hblocks, Option.some.injEq] at hother
    rw [hblocks', Option.some.injEq] at hother'
    rw [← hother, ← hother', hsum, hsum'] at hle
    omega

end

end cdx
