import Cdx.Blockchain.Growth
import Cdx.Blockchain.SupplyBound
import Cdx.Blockchain.UniqueIds
import Cdx.Lib.Simulation
import Cdx.Mempool.Coherent

namespace cdx

/-- The chain and the pool that the handlers of the node work on. -/
structure Node where
  chain : CBlockchain
  mempool : CTxMemPool := {}

/-- What reaches the node: a transaction at some time, or a block. -/
inductive NodeEvent where
  | tx (tx : CTransaction) (now : Int)
  | block (blk : CBlock)

namespace Node

section Handlers

variable [Crypto] [Memory]

/-- Admission of a transaction: `CheckTx` against the current chain, then `AddUnchecked`. -/
def admitTx (node : Node) (tx : CTransaction) (now : Int) : Option Node :=
  let height := node.chain.chain.height
  match node.mempool.checkTx tx node.chain.chain.view height with
  | .ok fee => some { node with mempool := (node.mempool.addUnchecked tx fee height now).2 }
  | .error (.error _) => some node
  | .error (.overflow _) => none

/-- Delivery of a block: `TryAcceptBlock`, and if it succeeds `RemoveSpent` against the new chain. -/
def acceptBlock (params : ChainParams) (node : Node) (blk : CBlock) : Option (ReorgResult × Node) :=
  match CBlockchain.tryAcceptBlock params blk node.chain with
  | .ok (r, chain) =>
    if r.ok then
      some (r, { chain := chain, mempool := (node.mempool.removeSpent chain.chain.view chain.chain.height).2 })
    else some (r, { node with chain := chain })
  | .error _ => none

/-- `HandleTx` after its payload is parsed. -/
def handleTx (node : Node) (tx : CTransaction) (now : Int) : Option Node :=
  if node.mempool.mapTx.contains (getTxID tx) then some node else node.admitTx tx now

/-- `HandleBlock` after its payload is parsed. -/
def handleBlock (params : ChainParams) (node : Node) (blk : CBlock) : Option (ReorgResult × Node) :=
  if node.chain.haveBlock blk.getHash then some ({}, node) else node.acceptBlock params blk

def step (params : ChainParams) (node : Node) : NodeEvent → Option Node
  | .tx tx now => node.admitTx tx now
  | .block blk => (node.acceptBlock params blk).map Prod.snd

/-- The handlers do what the events do, or nothing. -/
theorem step_of_handleTx (params : ChainParams) {node node' : Node} {tx : CTransaction} {now : Int}
    (hhandled : node.handleTx tx now = some node') : node' = node ∨ node.step params (.tx tx now) = some node' := by
  unfold handleTx at hhandled
  split at hhandled
  · cases hhandled
    exact Or.inl rfl
  · exact Or.inr hhandled

theorem step_of_handleBlock {params : ChainParams} {node node' : Node} {blk : CBlock} {r : ReorgResult}
    (hhandled : node.handleBlock params blk = some (r, node')) :
    node' = node ∨ node.step params (.block blk) = some node' := by
  unfold handleBlock at hhandled
  split at hhandled
  · cases hhandled
    exact Or.inl rfl
  · rw [step, hhandled]
    exact Or.inr rfl

/-- The blocks among the events. -/
def blocks (events : List NodeEvent) : List CBlock :=
  events.filterMap fun
    | .block blk => some blk
    | .tx _ _ => none

omit [Crypto] [Memory] in
theorem mem_blocks {events : List NodeEvent} {blk : CBlock} (hblk : .block blk ∈ events) : blk ∈ blocks events :=
  List.mem_filterMap.mpr ⟨.block blk, hblk, rfl⟩

omit [Memory] in
/-- An admission adds a checked transaction to the pool or changes nothing. -/
theorem admitTx_eq_some {node node' : Node} {tx : CTransaction} {now : Int} (hstep : node.admitTx tx now = some node') :
    node' = node ∨ ∃ fee, node.mempool.checkTx tx node.chain.chain.view node.chain.chain.height = .ok fee ∧
      node' = { node with mempool := (node.mempool.addUnchecked tx fee node.chain.chain.height now).2 } := by
  unfold admitTx at hstep
  simp only at hstep
  split at hstep
  next fee hfee =>
    cases hstep
    exact Or.inr ⟨fee, hfee, rfl⟩
  · cases hstep
    exact Or.inl rfl
  · cases hstep

/-- A delivery moves the chain by `TryAcceptBlock`; the pool is cleaned if that succeeds. -/
theorem acceptBlock_eq_some {params : ChainParams} {node node' : Node} {blk : CBlock} {r : ReorgResult}
    (hstep : node.acceptBlock params blk = some (r, node')) :
    CBlockchain.tryAcceptBlock params blk node.chain = .ok (r, node'.chain) ∧
      node'.mempool = if r.ok then (node.mempool.removeSpent node'.chain.chain.view node'.chain.chain.height).2
        else node.mempool := by
  unfold acceptBlock at hstep
  split at hstep
  next r' chain haccept =>
    split at hstep
    next hok =>
      cases hstep
      exact ⟨haccept, (if_pos hok).symm⟩
    next hfailed =>
      cases hstep
      exact ⟨haccept, (if_neg hfailed).symm⟩
  · cases hstep

theorem deliver_of_tryAcceptBlock {params : ChainParams} {bc bc' : CBlockchain} {blk : CBlock} {r : ReorgResult}
    (haccept : CBlockchain.tryAcceptBlock params blk bc = .ok (r, bc')) : CBlockchain.deliver params bc blk = some bc' := by
  rw [CBlockchain.deliver, haccept]

/-- A block that extends the chain is connected to it, and the pool is cleaned against the new chain. -/
theorem acceptBlock_extends {params : ChainParams} (node : Node) {blocks : List CBlock} {blk : CBlock}
    (hactive : Active params node.chain blocks) (hextends : ExtendsAt params node.chain blk blocks) :
    ∃ r chain, node.acceptBlock params blk =
        some (r, { chain := chain, mempool := (node.mempool.removeSpent chain.chain.view chain.chain.height).2 }) ∧
      r.ok = true ∧ Active params chain (blocks ++ [blk]) ∧
      ∀ hash, chain.haveBlock hash = true → hash = blk.getHash ∨ node.chain.haveBlock hash = true := by
  obtain ⟨r, chain, haccept, hok, hactive'⟩ := hactive.tryAcceptBlock_extends hextends
  refine ⟨r, chain, ?_, hok, hactive', fun hash => hactive.haveBlock_deliver (deliver_of_tryAcceptBlock haccept)⟩
  rw [acceptBlock, haccept]
  simp only [hok, if_true]

/-- A block that is not accepted leaves the chain as it is. -/
theorem chain_of_not_ok {params : ChainParams} {bc bc' : CBlockchain} {blk : CBlock} {r : ReorgResult}
    (haccept : CBlockchain.tryAcceptBlock params blk bc = .ok (r, bc')) (hfailed : r.ok = false) :
    bc'.chain = bc.chain := by
  cases CBlockchain.delivered_of_tryAcceptBlock haccept with
  | rejected _ _ htouched => exact htouched.chain_eq
  | known | extended | reorganised => cases hfailed

end Handlers

end Node

section Coins

variable [Crypto] [Memory]

/-- Every coin of the node was made by a transaction that occurred. -/
theorem Occurs.made {params : ChainParams} {events : List CBlock} {bc : CBlockchain} (hoccurs : Occurs params events bc)
    {out : COutPoint} {coin : CUTXO} (hcoin : bc.chain.view.getCoin out = some coin) :
    ∃ tx ∈ occurring events, tx.Decodable ∧ tx.Made out coin := by
  obtain ⟨blocks, hactive, hknown⟩ := hoccurs
  obtain hempty | ⟨-, -, tx, htx, hmade⟩ := replay_made hactive.replayed hcoin
  · simp at hempty
  · refine ⟨tx, ?_, (replay_wellFormed hactive.replayed tx htx).decodable, hmade⟩
    obtain ⟨blk, hblk, htx⟩ := List.mem_flatMap.mp htx
    exact (hknown blk hblk).occurring htx

/-- Across blocks and reorganisations, an outpoint determines the value and the script of its coin. -/
theorem Occurs.same_coin {params : ChainParams} {events : List CBlock} {bc bc' : CBlockchain}
    (hcollision : Set.InjOn sha256d (serializeTransaction '' occurring events)) (hoccurs : Occurs params events bc)
    (hoccurs' : Occurs params events bc') {out : COutPoint} {coin coin' : CUTXO}
    (hcoin : bc.chain.view.getCoin out = some coin) (hcoin' : bc'.chain.view.getCoin out = some coin') :
    coin'.value = coin.value ∧ coin'.scriptPubKey = coin.scriptPubKey := by
  obtain ⟨tx, htx, hdecodable, hmade⟩ := hoccurs.made hcoin
  obtain ⟨tx', htx', hdecodable', hmade'⟩ := hoccurs'.made hcoin'
  have hid : getTxID tx = getTxID tx' := hmade.1.symm.trans hmade'.1
  have hsame := serializeTransaction_injective hdecodable hdecodable' (hcollision ⟨tx, htx, rfl⟩ ⟨tx', htx', rfl⟩ hid)
  subst hsame
  exact hmade.same hmade'

end Coins

namespace Node

section Pool

variable [Crypto]

/-- Every transaction of the pool can still be paid from the chain, at the fee recorded for it. -/
def PoolValid (node : Node) : Prop :=
  ∀ (txid : UInt256) (entry : CTxMemPoolEntry), node.mempool.mapTx[txid]? = some entry →
    checkTxInputs entry.tx node.chain.chain.view node.chain.chain.height = .ok entry.fee

theorem poolValid_empty {chain : CBlockchain} : PoolValid { chain := chain } := by
  intro txid entry hentry
  simp at hentry

theorem PoolValid.admitTx {node node' : Node} (hvalid : node.PoolValid) {tx : CTransaction} {now : Int}
    (hstep : node.admitTx tx now = some node') : node'.PoolValid := by
  obtain rfl | ⟨fee, hcheck, rfl⟩ := admitTx_eq_some hstep
  · exact hvalid
  · intro txid entry hentry
    obtain hold | ⟨-, htx, hfee, -⟩ := CTxMemPool.mapTx_addUnchecked hentry
    · exact hvalid txid entry hold
    · rw [htx, hfee]
      exact (CTxMemPool.checkTx_eq_ok hcheck).2.2.1

variable [Memory]

/-- `RemoveSpent` looks only for missing and immature coins. That is enough, because what is
    still there at an outpoint has the value and the script it had before. -/
theorem PoolValid.acceptBlock {params : ChainParams} {events : List CBlock} {node node' : Node} {blk : CBlock}
    {r : ReorgResult} (hcollision : Set.InjOn sha256d (serializeTransaction '' occurring events))
    (hvalid : node.PoolValid) (hoccurs : Occurs params events node.chain) (hblk : blk ∈ events)
    (hstep : node.acceptBlock params blk = some (r, node')) : node'.PoolValid := by
  obtain ⟨haccept, hpool⟩ := acceptBlock_eq_some hstep
  have hoccurs' := hoccurs.deliver hblk (deliver_of_tryAcceptBlock haccept)
  intro txid entry hentry
  cases hok : r.ok with
  | false =>
    rw [hok, if_neg Bool.false_ne_true] at hpool
    rw [hpool] at hentry
    rw [chain_of_not_ok haccept hok]
    exact hvalid txid entry hentry
  | true =>
    rw [hok, if_pos rfl] at hpool
    rw [hpool, CTxMemPool.mapTx_removeSpent, CTxMemPool.isSpent_eq_false_iff] at hentry
    obtain ⟨hold, hinputs⟩ := hentry
    apply checkTxInputs_of_stillPays (hvalid txid entry hold)
    intro i hi coin hcoin
    obtain ⟨coin', hcoin', hspendable⟩ := hinputs i hi
    exact ⟨coin', hcoin', hspendable, hoccurs.same_coin hcollision hoccurs' hcoin hcoin'⟩

omit [Memory] in
/-- No sum that `CheckTx` forms over the coins of a chain overflows, so an admission always returns. -/
theorem admitTx_isSome {node : Node} (hview : node.chain.chain.view.InRange) (tx : CTransaction) (now : Int) :
    ∃ node', node.admitTx tx now = some node' := by
  unfold Node.admitTx
  simp only
  split
  · exact ⟨_, rfl⟩
  · exact ⟨_, rfl⟩
  next sum hoverflow => exact absurd hoverflow (CTxMemPool.checkTx_noOverflow _ tx hview _ sum)

theorem acceptBlock_isSome {params : ChainParams} {node : Node} {blocks : List CBlock}
    (hactive : Active params node.chain blocks) (blk : CBlock) :
    ∃ r node', node.acceptBlock params blk = some (r, node') := by
  unfold Node.acceptBlock
  split
  · split <;> exact ⟨_, _, rfl⟩
  next sum hoverflow => exact absurd hoverflow (hactive.noOverflow blk sum)

theorem fresh_occurs {params : ChainParams} {start : CBlockchain} (hfresh : CBlockchain.fresh params = some start)
    (events : List CBlock) : Occurs params events start := by
  obtain ⟨g, view, fees, hmined, -, -, hactive⟩ := fresh_active hfresh
  refine ⟨[g], hactive, ?_⟩
  intro blk hblk
  cases List.mem_singleton.mp hblk
  exact Or.inl hmined

/-- The blocks of the chain still occur among the events after any event. -/
theorem step_occurs {params : ChainParams} {events : List NodeEvent} {node node' : Node} {event : NodeEvent}
    (hevent : event ∈ events) (hoccurs : Occurs params (blocks events) node.chain)
    (hstep : node.step params event = some node') : Occurs params (blocks events) node'.chain := by
  cases event with
  | tx tx now =>
    obtain rfl | ⟨fee, -, rfl⟩ := admitTx_eq_some hstep
    · exact hoccurs
    · exact hoccurs
  | block blk =>
    obtain ⟨⟨r, _⟩, haccepted, rfl⟩ := Option.map_eq_some_iff.mp hstep
    exact hoccurs.deliver (mem_blocks hevent) (deliver_of_tryAcceptBlock (acceptBlock_eq_some haccepted).1)

/-- No event stops a node whose chain holds a list of blocks. -/
theorem step_isSome {params : ChainParams} {node : Node} {active : List CBlock}
    (hactive : Active params node.chain active) (event : NodeEvent) : ∃ node', node.step params event = some node' := by
  cases event with
  | tx tx now => exact admitTx_isSome hactive.funded.inRange tx now
  | block blk =>
    obtain ⟨r, node', haccepted⟩ := acceptBlock_isSome hactive blk
    refine ⟨node', ?_⟩
    rw [step, haccepted]
    rfl

/-- After an event the chain holds a list of blocks as before. -/
theorem step_active {params : ChainParams} {node node' : Node} {event : NodeEvent}
    (hnode : ∃ active, Active params node.chain active) (hstep : node.step params event = some node') :
    ∃ active, Active params node'.chain active := by
  cases event with
  | tx tx now =>
    obtain rfl | ⟨fee, -, rfl⟩ := admitTx_eq_some hstep
    · exact hnode
    · exact hnode
  | block blk =>
    obtain ⟨⟨r, _⟩, haccepted, rfl⟩ := Option.map_eq_some_iff.mp hstep
    exact active_deliver hnode (deliver_of_tryAcceptBlock (acceptBlock_eq_some haccepted).1)

theorem PoolValid.step {params : ChainParams} {events : List NodeEvent} {node node' : Node} {event : NodeEvent}
    (hcollision : Set.InjOn sha256d (serializeTransaction '' occurring (blocks events))) (hevent : event ∈ events)
    (hvalid : node.PoolValid) (hoccurs : Occurs params (blocks events) node.chain)
    (hstep : node.step params event = some node') : node'.PoolValid := by
  cases event with
  | tx tx now => exact hvalid.admitTx hstep
  | block blk =>
    obtain ⟨⟨r, _⟩, haccepted, rfl⟩ := Option.map_eq_some_iff.mp hstep
    exact hvalid.acceptBlock hcollision hoccurs (mem_blocks hevent) haccepted

/-- A run from a fresh node never stops, and keeps what every event keeps. -/
theorem run_fresh {params : ChainParams} {start : CBlockchain} {I : Node → Prop} (events : List NodeEvent)
    (hfresh : CBlockchain.fresh params = some start) (hstart : I { chain := start })
    (hkeeps : ∀ node event node', event ∈ events → Occurs params (blocks events) node.chain → I node →
      node.step params event = some node' → I node') :
    ∃ final, transition.run (Node.step params) { chain := start } events = some final ∧
      Occurs params (blocks events) final.chain ∧ I final := by
  apply transition.run_total (I := fun node : Node => Occurs params (blocks events) node.chain ∧ I node)
  · rintro node event hevent ⟨hoccurs, hnode⟩
    obtain ⟨active, hactive, -⟩ := id hoccurs
    obtain ⟨node', hstep⟩ := step_isSome hactive event
    exact ⟨node', hstep, step_occurs hevent hoccurs hstep, hkeeps node event node' hevent hoccurs hnode hstep⟩
  · exact ⟨fresh_occurs hfresh _, hstart⟩

/-- The states that admissions and deliveries reach from a fresh `Init`. -/
def Reachable (params : ChainParams) (node : Node) : Prop :=
  ∃ start events, CBlockchain.fresh params = some start ∧
    transition.run (Node.step params) { chain := start } events = some node

theorem Reachable.active {params : ChainParams} {node : Node} (hreachable : node.Reachable params) :
    ∃ active, Active params node.chain active := by
  obtain ⟨start, events, hfresh, hrun⟩ := hreachable
  obtain ⟨final, hfinal, ⟨active, hactive, -⟩, -⟩ := run_fresh (I := fun _ => True) events hfresh trivial
    (fun _ _ _ _ _ _ _ => trivial)
  rw [hrun, Option.some.injEq] at hfinal
  subst hfinal
  exact ⟨active, hactive⟩

/-- The pool stays valid against the chain through every interleaving of admissions and
    deliveries. -/
theorem run_poolValid {params : ChainParams} {start : CBlockchain} {events : List NodeEvent}
    (hcollision : Set.InjOn sha256d (serializeTransaction '' occurring (blocks events)))
    (hfresh : CBlockchain.fresh params = some start) :
    ∃ final, transition.run (Node.step params) { chain := start } events = some final ∧ final.PoolValid := by
  obtain ⟨final, hrun, -, hvalid⟩ := run_fresh events hfresh poolValid_empty
    (fun _ _ _ hevent hoccurs hvalid hstep => hvalid.step hcollision hevent hoccurs hstep)
  exact ⟨final, hrun, hvalid⟩

end Pool

end Node

section Growth

variable [Crypto] [Memory]

/-- The first blocks of a miner without transactions. -/
def grownEvents (g : CBlock) (n : Nat) : List NodeEvent := (List.range n).map fun i => .block (grownBlock g (i + 1))

/-- A fresh node takes them all. -/
theorem run_grownEvents {start : CBlockchain} {g : CBlock} {view : CCoinsView} {n : Nat} (hgrows : Grows g n)
    (hstart : start = CBlockchain.genesisState {} g view) (hactive : Active regtestParams start [g]) {i : Nat} (hi : i ≤ n) :
    ∃ chain, transition.run (Node.step regtestParams) { chain := start } (grownEvents g i) = some { chain := chain } ∧
      Active regtestParams chain (grownChain g (i + 1)) ∧
      ∀ hash, chain.haveBlock hash = true → ∃ k ≤ i, hash = (grownBlock g k).getHash := by
  induction i with
  | zero =>
    refine ⟨start, rfl, hactive, ?_⟩
    intro hash hhave
    rw [hstart, CBlockchain.haveBlock] at hhave
    obtain hgenesis | hold := eq_or_contains_of_insert hhave
    · exact ⟨0, Nat.le_refl 0, hgenesis⟩
    · cases hold
  | succ i ih =>
    obtain ⟨chain, hrun, hactive, hknown⟩ := ih (by omega)
    have hextends := hgrows.extendsAt hi hactive hknown
    obtain ⟨r, chain', haccept, -, hactive', hknown'⟩ :=
      Node.acceptBlock_extends { chain := chain } hactive hextends
    refine ⟨chain', ?_, ?_, ?_⟩
    · rw [grownEvents, List.range_succ, List.map_append, transition.run_append, ← grownEvents, hrun, Option.bind_some,
        List.map_singleton, transition.run_singleton, Node.step, haccept]
      rfl
    · rw [grownChain_succ]
      exact hactive'
    · intro hash hhave
      obtain hnew | hold := hknown' hash hhave
      · exact ⟨i + 1, Nat.le_refl _, hnew⟩
      · obtain ⟨k, hk, hsame⟩ := hknown hash hold
        exact ⟨k, by omega, hsame⟩

end Growth

section

attribute [local instance] suffixCrypto zeroMemory

/-- A chain on which the first coinbase matures, a payment of it, and one more block. -/
def matureEvents (g : CBlock) : List NodeEvent := grownEvents g 121 ++ [.tx firstPayment 0, .block (grownBlock g 122)]

/-- The payment comes into the pool and stays there. -/
theorem run_matureEvents : ∃ start g final entry, CBlockchain.fresh regtestParams = some start ∧
    transition.run (Node.step regtestParams) { chain := start } (matureEvents g) = some final ∧
    final.mempool.mapTx[getTxID firstPayment]? = some entry := by
  have hevaluated : (CBlockchain.fresh regtestParams).isSome = true ∧ (CBlockchain.minedGenesis regtestParams).map
      (fun g => (g.header.bits, g.header.timestamp)) = some (REGTEST_TARGET_BITS, CDX_GENESIS_TIMESTAMP) := by
    decide +kernel
  obtain ⟨start, hfresh⟩ := Option.isSome_iff_exists.mp hevaluated.1
  obtain ⟨g, view, fees, hmined, -, hstart, hactive⟩ := fresh_active hfresh
  have hgenesis := hevaluated.2
  rw [hmined, Option.map_some, Option.some.injEq, Prod.mk.injEq] at hgenesis
  have hgrows : Grows g 122 := grows_suffix hgenesis.1 hgenesis.2 (by decide)
  have hids : ∀ k, 1 < k → k ≤ 122 → getTxID (regtestCoinbase k) ≠ getTxID (regtestCoinbase 1) := by
    intro k hk hle hid
    have hsame := height_eq_of_getTxID (by omega) (by decide) hid
    omega
  obtain ⟨chain, hrun, hactive, hknown⟩ := run_grownEvents hgrows hstart hactive (show 121 ≤ 122 by decide)
  have hheight : chain.chain.height = 121 := by rw [hactive.height, length_grownChain]; rfl
  have hcoin := getCoin_grownChain (fun k hk hle => hids k hk (by omega)) hactive.replayed
  have hadmit : Node.step regtestParams { chain := chain } (.tx firstPayment 0) =
      some { chain := chain, mempool := (CTxMemPool.addUnchecked {} firstPayment 1000 121 0).2 } := by
    have htx : checkTransaction firstPayment = .ok () := by
      decide +kernel
    have hcheck := CTxMemPool.checkTx_of_valid {} htx (checkTxInputs_firstPayment hcoin (le_refl 121)) (by decide)
    rw [if_neg (by simp)] at hcheck
    simp only [Node.step, Node.admitTx, hheight, hcheck]
  obtain ⟨r, chain', haccept, -, hactive', -⟩ := Node.acceptBlock_extends
    { chain := chain, mempool := (CTxMemPool.addUnchecked {} firstPayment 1000 121 0).2 } hactive
    (hgrows.extendsAt (by decide) hactive hknown)
  rw [← grownChain_succ] at hactive'
  have hcoin' := getCoin_grownChain hids hactive'.replayed
  have hadded : (CTxMemPool.addUnchecked {} firstPayment 1000 121 0).2.mapTx[getTxID firstPayment]? =
      some ⟨firstPayment, 1000, 0, (serializeTransaction firstPayment).length, 121⟩ :=
    Std.ExtTreeMap.getElem?_insert_self
  refine ⟨start, g, ⟨chain', _⟩, _, hfresh, ?_,
    (CTxMemPool.mapTx_removeSpent _ chain'.chain.view chain'.chain.height).mpr ⟨hadded, ?_⟩⟩
  · rw [matureEvents, transition.run_append, hrun]
    simp only [Option.bind_some, transition.run, hadmit]
    rw [Node.step, haccept]
    rfl
  · rw [CTxMemPool.isSpent_eq_false_iff, firstPayment, List.forall_mem_singleton]
    refine ⟨firstCoin, hcoin', isSpendable_firstCoin ?_⟩
    rw [hactive'.height, length_grownChain]
    decide

theorem occurring_matureEvents {g : CBlock} : ∀ tx ∈ occurring (Node.blocks (matureEvents g)),
    tx = genesisTx ∨ tx = firstPayment ∨ ∃ height < 256, tx = regtestCoinbase height := by
  have hblocks : ∀ blk ∈ Node.blocks (matureEvents g), ∃ i < 122, blk = grownBlock g (i + 1) := by
    intro blk hblk
    obtain ⟨event, hevent, hsome⟩ := List.mem_filterMap.mp hblk
    obtain hgrown | hlast := List.mem_append.mp hevent
    · obtain ⟨i, hi, rfl⟩ := List.mem_map.mp hgrown
      cases hsome
      rw [List.mem_range] at hi
      exact ⟨i, by omega, rfl⟩
    · obtain rfl | rfl : event = .tx firstPayment 0 ∨ event = .block (grownBlock g 122) := by simpa using hlast
      · cases hsome
      · cases hsome
        exact ⟨121, by decide, rfl⟩
  rintro tx (rfl | ⟨blk, hblk, htx⟩)
  · exact Or.inl rfl
  · obtain ⟨i, hi, rfl⟩ := hblocks blk hblk
    exact Or.inr (Or.inr ⟨i + 1, by omega, List.mem_singleton.mp htx⟩)

theorem run_poolValid_mature : ∃ start g final entry, CBlockchain.fresh regtestParams = some start ∧
    transition.run (Node.step regtestParams) { chain := start } (matureEvents g) = some final ∧
    final.mempool.mapTx[getTxID firstPayment]? = some entry ∧ final.PoolValid := by
  obtain ⟨start, g, final, entry, hfresh, hrun, hentry⟩ := run_matureEvents
  obtain ⟨final', hrun', hvalid⟩ := Node.run_poolValid (collisionFree_suffix (occurring_matureEvents (g := g))) hfresh
  obtain rfl : final = final' := Option.some.inj (hrun.symm.trans hrun')
  exact ⟨start, g, final, entry, hfresh, hrun, hentry, hvalid⟩

end

end cdx
