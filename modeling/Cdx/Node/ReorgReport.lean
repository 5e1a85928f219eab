import Cdx.Node.Node

namespace cdx

section Report

variable [Crypto] [Memory]

/-- What `TryAcceptBlock` reports when the old chain is not a part of the new one: nothing
    disconnected, and the whole new chain connected. -/
theorem Active.reorganised_report {params : ChainParams} {blk : CBlock} {bc bc' : CBlockchain} {r : ReorgResult}
    {old new : List CBlock} (hactive : Active params bc old) (hdelivered : CBlockchain.Delivered params blk bc r bc')
    (hactive' : Active params bc' new) (hreplaced : ¬ old <+: new) :
    r.disconnected = [] ∧ r.connected = new.map CBlock.getHash ∧
      ∃ forkHeight : Nat, r.forkHeight = forkHeight ∧ forkHeight + 1 < old.length := by
  obtain ⟨reached, hstep⟩ := hactive.chainStep hdelivered
  obtain rfl : new = reached :=
    Option.some.inj (hactive'.readChain.symm.trans (hactive.step hstep).readChain)
  cases hstep with
  | kept htouched => exact absurd List.prefix_rfl hreplaced
  | extended => exact absurd (List.prefix_append old [blk]) hreplaced
  | @reorganised forkHeight parent view hunknown hparent hfork _ _ _ _ hresult =>
    have hbyHeight := hactive'.byHeight
    have hlength : (old.take (forkHeight + 1)).length = forkHeight + 1 := by rw [List.length_take]; omega
    cases hdelivered with
    | known hknown =>
      rw [hunknown] at hknown
      cases hknown
    | rejected message _ htouched =>
      -- The tip would be both an old block and the new one.
      obtain ⟨last, hlast, htip⟩ := hactive.tip
      have htip' : bc'.chain.tipHash = blk.getHash := by rw [hresult]; rfl
      rw [htouched.chain_eq, htip] at htip'
      exact absurd htip' (hactive.hash_ne hunknown (List.mem_of_getLast? hlast))
    | extended _ _ _ _ _ _ _ hextended =>
      -- The chain would be longer than before.
      have hheights := congrArg List.length hbyHeight
      rw [hextended, CBlockchain.applyBlock_chain] at hheights
      simp only [CBlockchain.touch, hactive.byHeight, List.length_append, List.length_map, List.length_singleton,
        hlength] at hheights
      omega
    | @reorganised prevIdx collected freshView newByHeight mid _ _ hindex _ _ hcollect hvalidate hreplaced' =>
      have hheight := hactive.heights _ _ hindex
      obtain ⟨-, hhashes, -, -⟩ := validateFork_eq_ok hvalidate
      obtain ⟨hcount, -⟩ := CBlockchain.collectFork_eq_ok (congrArg Prod.fst hcollect)
      have hconnected : newByHeight = (old.take (forkHeight + 1) ++ [blk]).map CBlock.getHash := by
        rw [← hbyHeight, hreplaced']
        rfl
      refine ⟨rfl, hconnected, forkHeight, ?_, hfork⟩
      have hlengths := congrArg List.length (hhashes.symm.trans hconnected)
      simp only [List.nil_append, List.length_map, List.length_append, List.length_singleton, hcount, hlength] at hlengths
      change prevIdx.height = forkHeight
      omega

namespace Node

/-- A reorganisation from `old` to `new` loses nothing: its report names what left the chain
    and what joined it, and the transactions that left are in the pool again if `CheckTx` lets them in. -/
structure LosesNothing (old new : List CBlock) (r : ReorgResult) (node : Node) : Prop where
  disconnected : ∀ hash, hash ∈ r.disconnected ↔ hash ∈ (old.drop (r.forkHeight + 1).toNat).map CBlock.getHash
  connected : ∀ hash, hash ∈ r.connected ↔ hash ∈ (new.drop (r.forkHeight + 1).toNat).map CBlock.getHash
  reprocessed : ∀ blk ∈ old.drop (r.forkHeight + 1).toNat, ∀ tx ∈ blk.vtx, tx.isCoinBase = false →
    (∀ kept ∈ new, tx ∉ kept.vtx) →
    (∃ fee, node.mempool.checkTx tx node.chain.chain.view node.chain.chain.height = .ok fee) →
    ∃ entry : CTxMemPoolEntry, node.mempool.mapTx[getTxID tx]? = some entry ∧ entry.tx = tx

/-- The handlers put nothing back into the pool. -/
theorem handleBlock_mempool {params : ChainParams} {node node' : Node} {blk : CBlock} {r : ReorgResult}
    (hstep : node.handleBlock params blk = some (r, node')) {txid : UInt256} {entry : CTxMemPoolEntry}
    (hentry : node'.mempool.mapTx[txid]? = some entry) : node.mempool.mapTx[txid]? = some entry := by
  unfold handleBlock at hstep
  split at hstep
  · cases hstep
    exact hentry
  · obtain ⟨-, hpool⟩ := acceptBlock_eq_some hstep
    rw [hpool] at hentry
    split at hentry
    · exact ((CTxMemPool.mapTx_removeSpent ..).mp hentry).1
    · exact hentry

/-- No reorganisation by `HandleBlock` is reported as the report is meant: the blocks that left
    the chain are never named, the blocks below the fork are named as connected, and no
    transaction returns to the pool. -/
theorem handleBlock_not_losesNothing {params : ChainParams} {node node' : Node} {blk : CBlock} {r : ReorgResult}
    {old new : List CBlock} (hreachable : node.Reachable params)
    (hstep : node.handleBlock params blk = some (r, node')) (hold : node.chain.readChain = some old)
    (hnew : node'.chain.readChain = some new) (hreplaced : ¬ old <+: new) :
    r.disconnected = [] ∧ r.connected = new.map CBlock.getHash ∧
      (∀ (txid : UInt256) (entry : CTxMemPoolEntry), node'.mempool.mapTx[txid]? = some entry →
        node.mempool.mapTx[txid]? = some entry) ∧ ¬ LosesNothing old new r node' := by
  have hmempool : ∀ (txid : UInt256) (entry : CTxMemPoolEntry), node'.mempool.mapTx[txid]? = some entry →
      node.mempool.mapTx[txid]? = some entry := fun _ _ => handleBlock_mempool hstep
  obtain ⟨blocks, hactive⟩ := hreachable.active
  obtain rfl : blocks = old := Option.some.inj (hactive.readChain.symm.trans hold)
  unfold handleBlock at hstep
  split at hstep
  · cases hstep
    rw [hold, Option.some.injEq] at hnew
    exact absurd (hnew ▸ List.prefix_rfl) hreplaced
  obtain ⟨haccept, -⟩ := acceptBlock_eq_some hstep
  obtain ⟨reached, -, hactive'⟩ := hactive.deliver (deliver_of_tryAcceptBlock haccept)
  obtain rfl : reached = new := Option.some.inj (hactive'.readChain.symm.trans hnew)
  obtain ⟨hdisconnected, hconnected, forkHeight, hforkHeight, hfork⟩ :=
    hactive.reorganised_report (CBlockchain.delivered_of_tryAcceptBlock haccept) hactive' hreplaced
  refine ⟨hdisconnected, hconnected, hmempool, ?_⟩
  intro hlossless
  -- The block above the fork has left the chain.
  have hleft : blocks[forkHeight + 1] ∈ blocks.drop (r.forkHeight + 1).toNat := by
    rw [hforkHeight, show ((forkHeight : Int) + 1).toNat = forkHeight + 1 by omega, List.drop_eq_getElem_cons hfork]
    exact List.mem_cons_self
  have hnamed := (hlossless.disconnected _).mpr (List.mem_map_of_mem hleft)
  rw [hdisconnected] at hnamed
  cases hnamed

end Node

end Report

section

attribute [local instance] toolCrypto zeroMemory

/-- A node on the first block is moved to the heavy block, and reports no block as disconnected. -/
theorem handleBlock_heavyBlock : ∃ (node node' : Node) (r : ReorgResult) (old new : List CBlock),
    node.Reachable regtestParams ∧
    node.handleBlock regtestParams heavyBlock = some (r, node') ∧ node.chain.readChain = some old ∧
    node'.chain.readChain = some new ∧ ¬ old <+: new ∧ r.disconnected = [] ∧ r.forkHeight = 0 ∧
    old.drop 1 = [firstBlock] := by
  have hevaluated : (do
      let start ← CBlockchain.fresh regtestParams
      let node ← transition.run (Node.step regtestParams) { chain := start } [.block firstBlock]
      let (r, node') ← node.handleBlock regtestParams heavyBlock
      let old ← node.chain.readChain
      let new ← node'.chain.readChain
      some (old.drop 1, new.drop 1, r.disconnected, r.forkHeight)) = some ([firstBlock], [heavyBlock], [], 0) := by
    rw [← tableCrypto_eq digests_right]
    decide +kernel
  simp only [Option.bind_eq_bind, Option.bind_eq_some_iff] at hevaluated
  obtain ⟨start, hfresh, node, hrun, ⟨r, node'⟩, hstep, old, hold, new, hnew, hvalues⟩ := hevaluated
  simp only [Option.some.injEq, Prod.mk.injEq] at hvalues
  obtain ⟨hfirst, hheavy, hdisconnected, hforkHeight⟩ := hvalues
  refine ⟨node, node', r, old, new, ⟨start, _, hfresh, hrun⟩, hstep, hold, hnew, ?_, hdisconnected, hforkHeight, hfirst⟩
  intro hkept
  have habove := hkept.drop 1
  rw [hfirst, hheavy] at habove
  obtain ⟨hsame, -⟩ := List.cons_prefix_cons.mp habove
  exact absurd (congrArg (fun blk => blk.header.bits) hsame) (by decide)

theorem handleBlock_not_losesNothing_heavyBlock : ∃ (node node' : Node) (r : ReorgResult) (old new : List CBlock),
    node.handleBlock regtestParams heavyBlock = some (r, node') ∧ node.chain.readChain = some old ∧
    node'.chain.readChain = some new ∧ r.connected = new.map CBlock.getHash ∧
    ¬ Node.LosesNothing old new r node' := by
  obtain ⟨node, node', r, old, new, hreachable, hstep, hold, hnew, hreplaced, -, -, -⟩ := handleBlock_heavyBlock
  obtain ⟨-, hconnected, -, hloses⟩ := Node.handleBlock_not_losesNothing hreachable hstep hold hnew hreplaced
  exact ⟨node, node', r, old, new, hstep, hold, hnew, hconnected, hloses⟩

/-- The first block leaves the chain and the report does not name it. -/
theorem losesNothing_fails_heavyBlock : ¬ ∀ (node node' : Node) (r : ReorgResult) (old new : List CBlock),
    node.Reachable regtestParams → node.handleBlock regtestParams heavyBlock = some (r, node') →
    node.chain.readChain = some old → node'.chain.readChain = some new → ¬ old <+: new →
    Node.LosesNothing old new r node' := by
  intro hclaimed
  obtain ⟨node, node', r, old, new, hreachable, hstep, hold, hnew, hreplaced, hdisconnected, hforkHeight, hfirst⟩ :=
    handleBlock_heavyBlock
  have hlossless := hclaimed node node' r old new hreachable hstep hold hnew hreplaced
  have hnamed := (hlossless.disconnected firstBlock.getHash).mpr
  rw [hdisconnected, hforkHeight, show ((0 : Int) + 1).toNat = 1 from rfl, hfirst, List.map_singleton] at hnamed
  exact absurd (hnamed List.mem_cons_self) List.not_mem_nil

end

end cdx
