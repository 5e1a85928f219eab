import Cdx.Blockchain.Invariants

namespace cdx

theorem getLast?_take_succ {blocks : List CBlock} {k : Nat} {blk : CBlock} (hblk : blocks[k]? = some blk) :
    (blocks.take (k + 1)).getLast? = some blk := by
  have hlt := (List.getElem?_eq_some_iff.mp hblk).1
  rw [List.getLast?_eq_getElem?, List.length_take, min_eq_left (by omega), Nat.add_sub_cancel,
    List.getElem?_take_of_lt (by omega), hblk]

variable [Crypto] [Memory]

/-- The fork branch of `TryAcceptBlock` when none of its checks fails. -/
theorem CBlockchain.acceptFork_of_validate {params : ChainParams} {blk : CBlock} {prevIdx : CBlockIndex}
    {bc mid : CBlockchain} {blocks : List CBlock} {freshView : CCoinsView} {newByHeight : List UInt256}
    (hwork : bc.chain.chainWork < prevIdx.chainWork + getBlockWork blk.header.bits)
    (hcollect : collectFork (prevIdx.height + 1).toNat 0 bc = (.ok blocks, mid))
    (hvalidate : validateFork params (blocks ++ [blk]) none 0 .empty [] = .ok (freshView, newByHeight)) :
    ∃ r, acceptFork params blk prevIdx bc = .ok (r, mid.replaceChain blk freshView newByHeight) := by
  unfold acceptFork
  simp only
  rw [if_neg (not_le.mpr hwork), hcollect]
  simp only
  rw [show ({} : CCoinsView) = .empty from rfl, hvalidate]
  exact ⟨_, rfl⟩

/-- The block makes the node leave its chain above `forkHeight`: it is new, sits
    on an active block below the tip, passes both checks there, and its branch
    has more work than the node records for its own chain. -/
structure ForkAt (params : ChainParams) (bc : CBlockchain) (blk : CBlock) (blocks : List CBlock) (forkHeight : Nat) :
    Prop where
  unknown : bc.haveBlock blk.getHash = false
  active : bc.readChain = some blocks
  below : forkHeight + 1 < blocks.length
  genesis : ∀ g : CBlock, blocks[0]? = some g → checkBlockHeader g.header none params = .ok ()
  header : ∀ parent : CBlock, blocks[forkHeight]? = some parent →
    checkBlockHeader blk.header (some parent.header) params = .ok ()
  replayed : ∃ view, replay 0 .empty (blocks.take (forkHeight + 1) ++ [blk]) = .ok view
  work : bc.chain.chainWork < chainWorkOf (blocks.take (forkHeight + 1) ++ [blk])

/-- The block makes the node leave its chain at some height. -/
def Reorganises (params : ChainParams) (bc : CBlockchain) (blk : CBlock) : Prop :=
  ∃ blocks forkHeight, ForkAt params bc blk blocks forkHeight

/-- The chain of a fresh node has no block below its tip to fork off. -/
theorem fresh_not_reorganises {params : ChainParams} {start : CBlockchain}
    (hfresh : CBlockchain.fresh params = some start) (blk : CBlock) : ¬ Reorganises params start blk := by
  rintro ⟨blocks, forkHeight, hfork⟩
  obtain ⟨g, view, fees, -, -, -, hactive⟩ := fresh_active hfresh
  obtain rfl : [g] = blocks := Option.some.inj (hactive.readChain.symm.trans hfork.active)
  have hbelow := hfork.below
  simp at hbelow

/-- A step that reorganises the chain is one of a block that forks off it. -/
theorem Active.forkAt {params : ChainParams} {bc : CBlockchain} {blocks : List CBlock} {blk parent : CBlock}
    {forkHeight : Nat} {view : CCoinsView} (hactive : Active params bc blocks)
    (hunknown : bc.haveBlock blk.getHash = false) (hparent : blocks[forkHeight]? = some parent)
    (hbelow : forkHeight + 1 < blocks.length)
    (hgenesis : ∀ g : CBlock, blocks[0]? = some g → checkBlockHeader g.header none params = .ok ())
    (hheader : checkBlockHeader blk.header (some parent.header) params = .ok ())
    (hreplay : replay 0 .empty (blocks.take (forkHeight + 1) ++ [blk]) = .ok view)
    (hwork : bc.chain.chainWork < chainWorkOf (blocks.take (forkHeight + 1) ++ [blk])) :
    ForkAt params bc blk blocks forkHeight := by
  refine ⟨hunknown, hactive.readChain, hbelow, hgenesis, ?_, ⟨view, hreplay⟩, hwork⟩
  intro parent' hparent'
  rw [hparent] at hparent'
  cases hparent'
  exact hheader

/-- A block that forks off the active chain replaces everything above its parent. -/
theorem Active.deliver_fork {params : ChainParams} {bc : CBlockchain} {blocks : List CBlock} {blk : CBlock}
    {forkHeight : Nat} (hactive : Active params bc blocks) (hfork : ForkAt params bc blk blocks forkHeight) :
    ∃ view, replay 0 .empty (blocks.take (forkHeight + 1) ++ [blk]) = .ok view ∧
      CBlockchain.deliver params bc blk = some (bc.touch.replaceChain blk view
        ((blocks.take (forkHeight + 1) ++ [blk]).map CBlock.getHash)) := by
  have hbelow := hfork.below
  obtain ⟨last, hlast, htip⟩ := hactive.tip
  obtain ⟨parent, hparent⟩ : ∃ parent, blocks[forkHeight]? = some parent := ⟨_, List.getElem?_eq_getElem (by omega)⟩
  have hheader := hfork.header parent hparent
  have hprev : blk.header.prevBlockHash = parent.getHash := (checkBlockHeader_some_eq_ok_iff.mp hheader).2.1
  have hnotTip : blk.header.prevBlockHash ≠ bc.chain.tipHash := by
    intro hsame
    rw [List.getLast?_eq_getElem?] at hlast
    have := hactive.index_unique hparent hlast (by rw [← hprev, hsame, htip])
    omega
  have hindex := hactive.indexed forkHeight parent hparent
  rw [← hprev] at hindex
  have hlength : (blocks.take (forkHeight + 1)).length = forkHeight + 1 := by rw [List.length_take]; omega
  have hcollect : CBlockchain.collectFork (forkHeight + 1) 0 bc = (.ok (blocks.take (forkHeight + 1)), bc.touch) := by
    have hreads : (CBlockchain.collectFork (blocks.take (forkHeight + 1)).length 0 bc).1 =
        .ok (blocks.take (forkHeight + 1)) := by
      apply CBlockchain.collectFork_of_reads
      intro i old hold
      have hi := (List.getElem?_eq_some_iff.mp hold).1
      rw [List.getElem?_take_of_lt (by omega)] at hold
      rw [Nat.zero_add, hactive.getBlockByHeight, hold]
    rw [hlength] at hreads
    obtain ⟨-, -, hmid⟩ := hactive.collectFork (Nat.succ_pos forkHeight) (Prod.ext hreads rfl)
    exact Prod.ext hreads hmid
  obtain ⟨view, hreplay⟩ := hfork.replayed
  have hvalidate : CBlockchain.validateFork params (blocks.take (forkHeight + 1) ++ [blk]) none 0 .empty [] =
      .ok (view, [] ++ (blocks.take (forkHeight + 1) ++ [blk]).map CBlock.getHash) := by
    apply validateFork_of_replay [] hreplay
    · intro g hg
      rw [List.getElem?_append_left (by omega), List.getElem?_take_of_lt (by omega)] at hg
      exact hfork.genesis g hg
    · apply (hactive.linked.take _).snoc
      intro last' hlast'
      rw [getLast?_take_succ hparent] at hlast'
      cases hlast'
      exact hheader
  have hwork := hfork.work
  rw [chainWorkOf_snoc] at hwork
  obtain ⟨r, haccept⟩ : ∃ r, CBlockchain.acceptFork params blk (parent.indexEntry forkHeight
      (chainWorkOf (blocks.take (forkHeight + 1))) (decide (forkHeight = 0))) bc = .ok (r, bc.touch.replaceChain blk view
        ([] ++ (blocks.take (forkHeight + 1) ++ [blk]).map CBlock.getHash)) :=
    CBlockchain.acceptFork_of_validate hwork hcollect hvalidate
  refine ⟨view, hreplay, ?_⟩
  unfold CBlockchain.deliver CBlockchain.tryAcceptBlock
  rw [hfork.unknown, hindex]
  simp only [Bool.false_eq_true, if_false, if_neg hnotTip, haccept]
  rfl

/-- What the node holds after a fork, with the chain work it recorded before. -/
theorem Active.forked {params : ChainParams} {bc bc' : CBlockchain} {blocks : List CBlock} {blk : CBlock}
    {forkHeight : Nat} (hactive : Active params bc blocks) (hfork : ForkAt params bc blk blocks forkHeight)
    (hdeliver : CBlockchain.deliver params bc blk = some bc') :
    Active params bc' (blocks.take (forkHeight + 1) ++ [blk]) ∧ bc'.chain.chainWork = bc.chain.chainWork := by
  obtain ⟨view, hreplay, hresult⟩ := hactive.deliver_fork hfork
  rw [hdeliver, Option.some.injEq] at hresult
  have hbelow := hfork.below
  obtain ⟨parent, hparent⟩ : ∃ parent, blocks[forkHeight]? = some parent := ⟨_, List.getElem?_eq_getElem (by omega)⟩
  have hheader := hfork.header parent hparent
  constructor
  · exact hactive.step (.reorganised hfork.unknown hparent hbelow hfork.genesis hheader hreplay hfork.work hresult)
  · rw [hresult, hactive.replaceChain_chain hparent (checkBlockHeader_some_eq_ok_iff.mp hheader).2.1]

/-- The block extends the active chain: it is new, sits on the tip, has the bits
    demanded there and passes both checks. -/
structure ExtendsAt (params : ChainParams) (bc : CBlockchain) (blk : CBlock) (blocks : List CBlock) : Prop where
  unknown : bc.haveBlock blk.getHash = false
  active : bc.readChain = some blocks
  header : ∀ last : CBlock, blocks.getLast? = some last → checkBlockHeader blk.header (some last.header) params = .ok ()
  bits : ∀ last : CBlock, blocks.getLast? = some last → blk.header.bits = requiredBits params blocks last.header
  replayed : ∃ view, replay 0 .empty (blocks ++ [blk]) = .ok view

/-- A block that extends the active chain is appended to it. -/
theorem Active.deliver_extension {params : ChainParams} {bc : CBlockchain} {blocks : List CBlock} {blk last : CBlock}
    (hactive : Active params bc blocks) (hextends : ExtendsAt params bc blk blocks)
    (hlast : blocks.getLast? = some last) :
    ∃ view fees, checkBlock blk blocks.length bc.chain.view = .ok (view, fees) ∧
      CBlockchain.deliver params bc blk = some (bc.touch.applyBlock blk blocks.length
        (last.indexEntry (blocks.length - 1 : Nat) (chainWorkOf blocks) (decide (blocks.length - 1 = 0))) view) := by
  obtain ⟨view, hreplay⟩ := hextends.replayed
  obtain ⟨base, hbase, hblk⟩ := replay_append_eq_ok hreplay
  rw [hactive.replayed] at hbase
  cases hbase
  obtain ⟨fees, hcheck⟩ := replay_singleton_eq_ok_iff.mp hblk
  rw [Nat.zero_add] at hcheck
  obtain ⟨last', hlast', htip⟩ := hactive.tip
  rw [hlast] at hlast'
  cases hlast'
  have hpos := List.length_pos_of_ne_nil hactive.ne_nil
  have hheader := hextends.header last hlast
  have hprev : blk.header.prevBlockHash = last.getHash := (checkBlockHeader_some_eq_ok_iff.mp hheader).2.1
  have hindex := hactive.last_indexed hlast
  have hheight : ((blocks.length - 1 : Nat) : Int) = (blocks.length : Int) - 1 := by omega
  have hbits := hextends.bits last hlast
  rw [requiredBits, ← hactive.firstTime] at hbits
  have haccept : CBlockchain.acceptBlock params blk blocks.length bc = .ok (.ok (), bc.touch.applyBlock blk blocks.length
      (last.indexEntry (blocks.length - 1 : Nat) (chainWorkOf blocks) (decide (blocks.length - 1 = 0))) view) := by
    rw [CBlockchain.acceptBlock_eq, hprev, hindex]
    simp only [hactive.stored last (List.mem_of_getLast? hlast), hheader]
    rw [if_neg]
    · simp only [hcheck]
    · rw [not_not]
      simp only [CBlock.indexEntry, hheight]
      exact hbits
  refine ⟨view, fees, hcheck, ?_⟩
  unfold CBlockchain.deliver CBlockchain.tryAcceptBlock
  rw [hextends.unknown, hprev, hindex]
  have hnext : ((blocks.length - 1 : Nat) : Int) + 1 = blocks.length := by omega
  simp only [Bool.false_eq_true, if_false, htip, if_true]
  rw [show (last.indexEntry (blocks.length - 1 : Nat) (chainWorkOf blocks) (decide (blocks.length - 1 = 0))).height + 1 =
    (blocks.length : Int) from hnext, haccept]

/-- The block is connected on top of these blocks, by either branch. -/
def Joins (params : ChainParams) (bc : CBlockchain) (blk : CBlock) (base : List CBlock) : Prop :=
  ExtendsAt params bc blk base ∨ ∃ blocks forkHeight, ForkAt params bc blk blocks forkHeight ∧
    base = blocks.take (forkHeight + 1)

theorem Active.joined {params : ChainParams} {bc bc' : CBlockchain} {blocks base : List CBlock} {blk : CBlock}
    (hactive : Active params bc blocks) (hjoins : Joins params bc blk base)
    (hdeliver : CBlockchain.deliver params bc blk = some bc') :
    base <+: blocks ∧ base ≠ [] ∧ Active params bc' (base ++ [blk]) := by
  rcases hjoins with hextends | ⟨blocks', forkHeight, hfork, rfl⟩
  · obtain rfl : blocks = base := Option.some.inj (hactive.readChain.symm.trans hextends.active)
    refine ⟨List.prefix_refl _, hactive.ne_nil, ?_⟩
    obtain ⟨last, hlast, -⟩ := hactive.tip
    obtain ⟨view, fees, hcheck, hresult⟩ := hactive.deliver_extension hextends hlast
    rw [hdeliver, Option.some.injEq] at hresult
    exact hactive.step (.extended hextends.unknown hlast (hextends.header last hlast) (hextends.bits last hlast) hcheck
      hresult)
  · obtain rfl : blocks = blocks' := Option.some.inj (hactive.readChain.symm.trans hfork.active)
    refine ⟨List.take_prefix _ _, ?_, (hactive.forked hfork hdeliver).1⟩
    simpa using hactive.ne_nil

/-- Every delivery leaves the chain as it is or connects the block to some of it. -/
theorem Active.deliver_joins {params : ChainParams} {bc bc' : CBlockchain} {blocks : List CBlock} {blk : CBlock}
    (hactive : Active params bc blocks) (hdeliver : CBlockchain.deliver params bc blk = some bc') :
    CBlockchain.Touched bc bc' ∨ ∃ base, Joins params bc blk base := by
  obtain ⟨blocks', hstep, -⟩ := hactive.deliver hdeliver
  cases hstep with
  | kept htouched => exact Or.inl htouched
  | @extended last view fees hunknown hlast hheader hbits hcheck hresult =>
    right
    refine ⟨blocks, Or.inl ⟨hunknown, hactive.readChain, ?_, ?_, view, ?_⟩⟩
    · intro last' hlast'
      rw [hlast] at hlast'
      cases hlast'
      exact hheader
    · intro last' hlast'
      rw [hlast] at hlast'
      cases hlast'
      exact hbits
    · rw [replay_append, hactive.replayed, bind_ok, Nat.zero_add]
      exact replay_singleton_eq_ok_iff.mpr ⟨fees, hcheck⟩
  | reorganised hunknown hparent hbelow hgenesis hheader hreplay hwork hresult =>
    exact Or.inr ⟨_, Or.inr ⟨blocks, _, hactive.forkAt hunknown hparent hbelow hgenesis hheader hreplay hwork, rfl⟩⟩

end cdx
