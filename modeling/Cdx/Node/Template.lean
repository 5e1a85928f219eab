import Cdx.Mining.Miner
import Cdx.Node.Node

namespace cdx

namespace Node

/-- The transactions among the events. -/
def offered (events : List NodeEvent) : List CTransaction :=
  events.filterMap fun
    | .tx tx _ => some tx
    | .block _ => none

theorem mem_offered {events : List NodeEvent} {tx : CTransaction} {now : Int} (htx : .tx tx now ∈ events) :
    tx ∈ offered events :=
  List.mem_filterMap.mpr ⟨.tx tx now, htx, rfl⟩

section Template

variable [Crypto]

/-- What admission ensures of the pool, whatever the chain does later. -/
structure PoolAdmitted (events : List NodeEvent) (node : Node) : Prop where
  coherent : node.mempool.Coherent
  checked : ∀ (txid : UInt256) (entry : CTxMemPoolEntry), node.mempool.mapTx[txid]? = some entry →
    checkTransaction entry.tx = .ok () ∧ entry.tx.isCoinBase = false ∧ entry.tx ∈ offered events

theorem poolAdmitted_empty {events : List NodeEvent} {chain : CBlockchain} : PoolAdmitted events { chain := chain } := by
  refine ⟨CTxMemPool.coherent_empty, ?_⟩
  intro txid entry hentry
  simp at hentry

theorem PoolAdmitted.admitTx {events : List NodeEvent} {node node' : Node} {tx : CTransaction} {now : Int}
    (hadmitted : node.PoolAdmitted events) (htx : tx ∈ offered events) (hstep : node.admitTx tx now = some node') :
    node'.PoolAdmitted events := by
  obtain rfl | ⟨fee, hcheck, rfl⟩ := admitTx_eq_some hstep
  · exact hadmitted
  · obtain ⟨hchecked, hunspent, hfee, -⟩ := CTxMemPool.checkTx_eq_ok hcheck
    refine ⟨hadmitted.coherent.addUnchecked hunspent .., ?_⟩
    intro txid entry hentry
    obtain hold | ⟨-, rfl, -⟩ := CTxMemPool.mapTx_addUnchecked hentry
    · exact hadmitted.checked txid entry hold
    · exact ⟨hchecked, (checkTxInputs_eq_ok hfee).1, htx⟩

variable [Memory]

/-- A delivery only takes transactions out of the pool. -/
theorem PoolAdmitted.acceptBlock {params : ChainParams} {events : List NodeEvent} {node node' : Node} {blk : CBlock}
    {r : ReorgResult} (hadmitted : node.PoolAdmitted events) (hstep : node.acceptBlock params blk = some (r, node')) :
    node'.PoolAdmitted events := by
  obtain ⟨-, hpool⟩ := acceptBlock_eq_some hstep
  split at hpool
  · refine ⟨?_, ?_⟩
    · rw [hpool]
      exact hadmitted.coherent.removeSpent ..
    · intro txid entry hentry
      rw [hpool, CTxMemPool.mapTx_removeSpent] at hentry
      exact hadmitted.checked txid entry hentry.1
  · refine ⟨?_, ?_⟩
    · rw [hpool]
      exact hadmitted.coherent
    · rw [hpool]
      exact hadmitted.checked

theorem PoolAdmitted.step {params : ChainParams} {events : List NodeEvent} {node node' : Node} {event : NodeEvent}
    (hadmitted : node.PoolAdmitted events) (hevent : event ∈ events) (hstep : node.step params event = some node') :
    node'.PoolAdmitted events := by
  cases event with
  | tx tx now => exact hadmitted.admitTx (mem_offered hevent) hstep
  | block blk =>
    obtain ⟨⟨r, _⟩, haccepted, rfl⟩ := Option.map_eq_some_iff.mp hstep
    exact hadmitted.acceptBlock haccepted

/-- The pool can be mined over the view of the chain: a transaction of the pool that makes a coin
    the view already holds is the transaction that made it. -/
theorem PoolAdmitted.minable {params : ChainParams} {events : List NodeEvent} {node : Node}
    (hadmitted : node.PoolAdmitted events) (hoccurs : Occurs params (blocks events) node.chain)
    (hcollision : Set.InjOn sha256d
      (serializeTransaction '' (occurring (blocks events) ∪ { tx | tx ∈ offered events }))) :
    Minable node.chain.chain.view node.mempool.getTxs := by
  refine ⟨?_, hadmitted.coherent.pairwise_getTxs, ?_⟩
  · intro tx htx
    obtain ⟨txid, entry, hentry, rfl⟩ := CTxMemPool.mem_getTxs htx
    exact (hadmitted.checked txid entry hentry).1
  · intro tx htx out txOut coin hcreates hcoin
    obtain ⟨txid, entry, hentry, rfl⟩ := CTxMemPool.mem_getTxs htx
    obtain ⟨hchecked, hkind, hoffered⟩ := hadmitted.checked txid entry hentry
    obtain ⟨maker, hmaker, hdecodable, hmade⟩ := hoccurs.made hcoin
    have hid : getTxID entry.tx = getTxID maker := hcreates.1.symm.trans hmade.1
    have hser := hcollision ⟨entry.tx, Or.inr hoffered, rfl⟩ ⟨maker, Or.inl hmaker, rfl⟩ hid
    have hsame := serializeTransaction_injective (wellFormed_of_checkTransaction hchecked).decodable hdecodable hser
    have hpaid := hmade.2
    rw [← hsame, CTransaction.paid, hkind, if_neg Bool.false_ne_true, hcreates.2, Option.map_some, Option.some.injEq,
      Prod.mk.injEq] at hpaid
    exact hpaid

/-- In every state that admissions and deliveries reach, the template for the next height passes
    `CheckBlock`, and its coinbase pays the subsidy and the fees that `CheckBlock` finds. -/
theorem run_template {params : ChainParams} {start : CBlockchain} {events : List NodeEvent}
    (hcollision : Set.InjOn sha256d
      (serializeTransaction '' (occurring (blocks events) ∪ { tx | tx ∈ offered events })))
    (hfresh : CBlockchain.fresh params = some start) :
    ∃ final, transition.run (Node.step params) { chain := start } events = some final ∧
      ∀ (bits timestamp : UInt32) (prevHash : UInt256) (minerAddress : Bytes) (versionByte : UInt8),
        ∃ blk fees view', createCandidateBlock (final.chain.chain.height + 1) bits timestamp prevHash final.mempool
            final.chain.chain.view minerAddress versionByte = .ok (blk, fees) ∧
          checkBlock blk (final.chain.chain.height + 1) final.chain.chain.view = .ok (view', fees) ∧
          ∃ coinbase txs, blk.vtx = coinbase :: txs ∧
            outputValue coinbase.vout = getBlockSubsidy (final.chain.chain.height + 1) + fees := by
  obtain ⟨final, hrun, hoccurs, hadmitted⟩ := run_fresh events hfresh poolAdmitted_empty
    (fun _ _ _ hevent _ hadmitted hstep => PoolAdmitted.step hadmitted hevent hstep)
  refine ⟨final, hrun, ?_⟩
  obtain ⟨active, hactive, -⟩ := id hoccurs
  have hfunded := hactive.funded
  have hheight : final.chain.chain.height + 1 = (active.length : Int) := by
    rw [hactive.height]
    omega
  have htotal : final.chain.chain.view.totalValue + getBlockSubsidy (final.chain.chain.height + 1) ≤ MAX_MONEY := by
    have hsupply := subsidySum_le (active.length + 1)
    have hpaid := hfunded.total
    rw [subsidySum_succ] at hsupply
    rw [hheight]
    exact le_trans (Int.add_le_add_right hpaid _) hsupply
  exact createCandidateBlock_valid hfunded.inRange htotal (hadmitted.minable hoccurs hcollision)

end Template

end Node

section

attribute [local instance] suffixCrypto zeroMemory

/-- A template over a pool with a payment in it. -/
theorem run_template_mature : ∃ start g final entry, CBlockchain.fresh regtestParams = some start ∧
    transition.run (Node.step regtestParams) { chain := start } (matureEvents g) = some final ∧
    final.mempool.mapTx[getTxID firstPayment]? = some entry ∧
    ∀ (timestamp : UInt32) (minerAddress : Bytes) (versionByte : UInt8), ∃ blk fees view',
      createCandidateBlock (final.chain.chain.height + 1) REGTEST_TARGET_BITS timestamp final.chain.chain.tipHash
        final.mempool final.chain.chain.view minerAddress versionByte = .ok (blk, fees) ∧
      checkBlock blk (final.chain.chain.height + 1) final.chain.chain.view = .ok (view', fees) ∧
      ∃ coinbase txs, blk.vtx = coinbase :: txs ∧
        outputValue coinbase.vout = getBlockSubsidy (final.chain.chain.height + 1) + fees := by
  obtain ⟨start, g, final, entry, hfresh, hrun, hentry⟩ := run_matureEvents
  have htxs : ∀ tx ∈ occurring (Node.blocks (matureEvents g)) ∪ { tx | tx ∈ Node.offered (matureEvents g) },
      tx = genesisTx ∨ tx = firstPayment ∨ ∃ height < 256, tx = regtestCoinbase height := by
    rintro tx (hoccurs | hoffered)
    · exact occurring_matureEvents tx hoccurs
    · obtain ⟨event, hevent, hsome⟩ := List.mem_filterMap.mp hoffered
      obtain hgrown | hlast := List.mem_append.mp hevent
      · obtain ⟨i, -, rfl⟩ := List.mem_map.mp hgrown
        cases hsome
      · obtain rfl | rfl : event = .tx firstPayment 0 ∨ event = .block (grownBlock g 122) := by simpa using hlast
        · cases hsome
          exact Or.inr (Or.inl rfl)
        · cases hsome
  obtain ⟨final', hrun', htemplate⟩ := Node.run_template (collisionFree_suffix htxs) hfresh
  obtain rfl : final = final' := Option.some.inj (hrun.symm.trans hrun')
  exact ⟨start, g, final, entry, hfresh, hrun, hentry, fun timestamp minerAddress versionByte =>
    htemplate REGTEST_TARGET_BITS timestamp final.chain.chain.tipHash minerAddress versionByte⟩

end

end cdx
