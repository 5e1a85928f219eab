import Cdx.Blockchain.Connect

namespace cdx

section Rule

variable [Crypto] [Memory]

/-- Every block of the list after the first has the bits that
    `GetNextWorkRequired` demands after the blocks below it. -/
def RightBits (params : ChainParams) (blocks : List CBlock) : Prop :=
  ∀ (i : Nat) (prev blk : CBlock), blocks[i]? = some prev → blocks[i + 1]? = some blk →
    blk.header.bits = requiredBits params (blocks.take (i + 1)) prev.header

theorem rightBits_singleton (params : ChainParams) (g : CBlock) : RightBits params [g] := by
  intro i prev blk _ hblk
  simp at hblk

theorem RightBits.take {params : ChainParams} {blocks : List CBlock} (hright : RightBits params blocks) (n : Nat) :
    RightBits params (blocks.take n) := by
  intro i prev blk hprev hblk
  have hi := (List.getElem?_eq_some_iff.mp hblk).1
  rw [List.length_take] at hi
  rw [List.getElem?_take_of_lt (by omega)] at hprev hblk
  rw [List.take_take, min_eq_left (by omega)]
  exact hright i prev blk hprev hblk

/-- One more block keeps the rule exactly when it has the bits demanded of it. -/
theorem RightBits.snoc_iff {params : ChainParams} {blocks : List CBlock} (hright : RightBits params blocks)
    {last : CBlock} (hlast : blocks.getLast? = some last) (blk : CBlock) :
    RightBits params (blocks ++ [blk]) ↔ blk.header.bits = requiredBits params blocks last.header := by
  have hpos : 0 < blocks.length := List.length_pos_of_ne_nil (by rintro rfl; cases hlast)
  have hat : blocks[blocks.length - 1]? = some last := by rw [← List.getLast?_eq_getElem?, hlast]
  constructor
  · intro hsnoc
    have hbits := hsnoc (blocks.length - 1) last blk
    rw [List.getElem?_append_left (by omega), Nat.sub_add_cancel hpos, List.getElem?_concat_length,
      List.take_append_of_le_length (le_refl _), List.take_length] at hbits
    exact hbits hat rfl
  · intro hbits i prev next hprev hnext
    have hi := (List.getElem?_eq_some_iff.mp hnext).1
    rw [List.length_append, List.length_singleton] at hi
    rw [List.getElem?_append_left (by omega)] at hprev
    rw [List.take_append_of_le_length (by omega)]
    by_cases hnew : i + 1 < blocks.length
    · rw [List.getElem?_append_left hnew] at hnext
      exact hright i prev next hprev hnext
    · obtain rfl : i = blocks.length - 1 := by omega
      rw [Nat.sub_add_cancel hpos] at hnext ⊢
      rw [List.getElem?_concat_length] at hnext
      rw [hat] at hprev
      cases hprev
      cases hnext
      rw [List.take_length]
      exact hbits

/-- Every block of the active chain after genesis has the bits that its parent demands. -/
def DifficultyRule (params : ChainParams) (bc : CBlockchain) : Prop :=
  ∃ blocks, bc.readChain = some blocks ∧ RightBits params blocks

theorem Active.difficultyRule_iff {params : ChainParams} {bc : CBlockchain} {blocks : List CBlock}
    (hactive : Active params bc blocks) : DifficultyRule params bc ↔ RightBits params blocks := by
  constructor
  · rintro ⟨blocks', hread, hright⟩
    rw [hactive.readChain, Option.some.injEq] at hread
    rwa [hread]
  · exact fun hright => ⟨blocks, hactive.readChain, hright⟩

/-- A block that forks off the active chain has the bits that its parent demands. -/
def ForkRightBits (params : ChainParams) (bc : CBlockchain) (blk : CBlock) : Prop :=
  ∀ (blocks : List CBlock) (forkHeight : Nat) (parent : CBlock), ForkAt params bc blk blocks forkHeight →
    blocks[forkHeight]? = some parent →
      blk.header.bits = requiredBits params (blocks.take (forkHeight + 1)) parent.header

/-- `AcceptBlock` checks the bits; the fork branch relies on the block for them. -/
theorem Active.difficultyRule_deliver_iff {params : ChainParams} {bc bc' : CBlockchain} {blocks : List CBlock}
    {blk : CBlock} (hactive : Active params bc blocks) (hrule : DifficultyRule params bc)
    (hdeliver : CBlockchain.deliver params bc blk = some bc') :
    DifficultyRule params bc' ↔ ForkRightBits params bc blk := by
  rw [hactive.difficultyRule_iff] at hrule
  have hforked : ∀ {forkHeight : Nat} {parent : CBlock}, ForkAt params bc blk blocks forkHeight →
      blocks[forkHeight]? = some parent → (DifficultyRule params bc' ↔
        blk.header.bits = requiredBits params (blocks.take (forkHeight + 1)) parent.header) := by
    intro forkHeight parent hfork hparent
    rw [(hactive.forked hfork hdeliver).1.difficultyRule_iff]
    exact (hrule.take _).snoc_iff (getLast?_take_succ hparent) blk
  constructor
  · intro hrule' blocks' forkHeight parent hfork hparent
    obtain rfl : blocks = blocks' := Option.some.inj (hactive.readChain.symm.trans hfork.active)
    exact (hforked hfork hparent).mp hrule'
  · intro hbitsFork
    obtain ⟨blocks', hstep, hactive'⟩ := hactive.deliver hdeliver
    cases hstep with
    | kept htouched => exact hactive'.difficultyRule_iff.mpr hrule
    | extended hunknown hlast hheader hbits hcheck hresult =>
      exact hactive'.difficultyRule_iff.mpr ((hrule.snoc_iff hlast blk).mpr hbits)
    | reorganised hunknown hparent hbelow hgenesis hheader hreplay hwork hresult =>
      have hfork := hactive.forkAt hunknown hparent hbelow hgenesis hheader hreplay hwork
      exact (hforked hfork hparent).mpr (hbitsFork _ _ _ hfork hparent)

/-- The difficulty rule holds in every state of a run exactly when every block that
    forks off the active chain during the run has the bits that its parent demands. -/
theorem run_difficultyRule_iff {params : ChainParams} {start final : CBlockchain} {events : List CBlock}
    (hfresh : CBlockchain.fresh params = some start)
    (hrun : transition.run (CBlockchain.deliver params) start events = some final) :
    (∀ bc, transition.Visits (CBlockchain.deliver params) start events bc → DifficultyRule params bc) ↔
      ∀ bc blk, transition.Takes (CBlockchain.deliver params) start events bc blk → ForkRightBits params bc blk := by
  obtain ⟨g, view, fees, -, -, -, hactive⟩ := fresh_active hfresh
  apply transition.visits_iff_takes (I := fun bc => ∃ blocks, Active params bc blocks) _ _ ⟨[g], hactive⟩ _ hrun
  · exact fun bc blk bc' _ hbc _ hdeliver => active_deliver hbc hdeliver
  · exact fun bc blk bc' _ ⟨_, hbc⟩ hrule hdeliver => hbc.difficultyRule_deliver_iff hrule hdeliver
  · exact hactive.difficultyRule_iff.mpr (rightBits_singleton params g)

end Rule

section

attribute [local instance] toolCrypto zeroMemory

theorem run_difficultyRule_first : ∃ start final, CBlockchain.fresh regtestParams = some start ∧
    transition.run (CBlockchain.deliver regtestParams) start [firstBlock] = some final ∧
    ∀ bc, transition.Visits (CBlockchain.deliver regtestParams) start [firstBlock] bc →
      DifficultyRule regtestParams bc := by
  obtain ⟨start, final, hfresh, hrun⟩ := regtestAfter_extended
  refine ⟨start, final, hfresh, hrun, (run_difficultyRule_iff hfresh hrun).mpr ?_⟩
  rintro bc blk (⟨rfl, rfl⟩ | ⟨next, -, htakes⟩) blocks forkHeight parent hfork hparent
  · exact absurd ⟨blocks, forkHeight, hfork⟩ (fresh_not_reorganises hfresh _)
  · cases htakes

/-- The heavy block does not have the bits of its parent, and the fork branch
    connects it all the same. -/
theorem difficultyRule_fails_after_reorganisation : ∃ bc, regtestAfter [firstBlock, heavyBlock] = some bc ∧
    ¬ DifficultyRule regtestParams bc := by
  have hevaluated : (regtestAfter [firstBlock, heavyBlock]).map (fun bc => bc.readChain.map fun blocks =>
      blocks.map fun blk => blk.header.bits) = some (some [0x207fffff, 0x2000ffff]) := by
    rw [← tableCrypto_eq digests_right]
    decide +kernel
  obtain ⟨bc, hbc, hchain⟩ := Option.map_eq_some_iff.mp hevaluated
  obtain ⟨blocks, hread, hbits⟩ := Option.map_eq_some_iff.mp hchain
  refine ⟨bc, hbc, ?_⟩
  rintro ⟨blocks', hread', hright⟩
  rw [hread, Option.some.injEq] at hread'
  subst hread'
  obtain ⟨g, heavy, rfl⟩ := List.length_eq_two.mp (by simpa using congrArg List.length hbits)
  have hrequired := hright 0 g heavy rfl rfl
  -- This network does not retarget: the bits of the parent are demanded.
  have hnoRetarget : regtestParams.powNoRetarget = true := rfl
  rw [requiredBits, getNextWorkRequired, if_pos hnoRetarget] at hrequired
  simp only [List.map_cons, List.map_nil, List.cons.injEq, and_true] at hbits
  rw [hbits.1, hbits.2] at hrequired
  exact absurd hrequired (by decide)

end

end cdx
