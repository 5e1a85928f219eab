import Cdx.Blockchain.Regtest
import Cdx.Consensus.CoinOrigin

namespace cdx

section Representation

variable [Crypto] [Memory]

/-- The redundant parts of the chain state agree with one another and with the
    stored blocks. -/
structure ChainWellFormed (bc : CBlockchain) : Prop where
  size : (bc.chain.byHeight.length : Int) = bc.chain.height + 1
  tip : 0 ≤ bc.chain.height ∧ bc.chain.byHeight[bc.chain.height.toNat]? = some bc.chain.tipHash
  distinct : bc.chain.byHeight.Nodup
  entries : ∀ (i : Nat) (hash : UInt256), bc.chain.byHeight[i]? = some hash →
    ∃ entry blk, bc.getIndex hash = some entry ∧ bc.storage.stored hash = some blk ∧ blk.getHash = hash ∧
      entry.height = i ∧ (0 < i → bc.chain.byHeight[i - 1]? = some entry.prevHash) ∧
      entry.timestamp = blk.header.timestamp ∧ checkProofOfWork hash blk.header.bits = true
  timestamps : ∀ (i j : Nat) (hash hash' : UInt256) (entry entry' : CBlockIndex), i < j →
    bc.chain.byHeight[i]? = some hash → bc.chain.byHeight[j]? = some hash' →
    bc.getIndex hash = some entry → bc.getIndex hash' = some entry' → entry.timestamp < entry'.timestamp

/-- Every block of the active chain has proof of work. -/
theorem Active.proofOfWork {params : ChainParams} {bc : CBlockchain} {blocks : List CBlock}
    (hactive : Active params bc blocks) {i : Nat} {blk : CBlock} (hblk : blocks[i]? = some blk) :
    checkProofOfWork blk.getHash blk.header.bits = true := by
  cases i with
  | zero => exact hactive.genesis blk hblk
  | succ i =>
    have hi := (List.getElem?_eq_some_iff.mp hblk).1
    obtain ⟨prev, hprev⟩ : ∃ prev, blocks[i]? = some prev := ⟨_, List.getElem?_eq_getElem (by omega)⟩
    exact (checkBlockHeader_some_eq_ok_iff.mp (hactive.linked i prev blk hprev hblk)).1

theorem Active.wellFormed {params : ChainParams} {bc : CBlockchain} {blocks : List CBlock}
    (hactive : Active params bc blocks) : ChainWellFormed bc := by
  obtain ⟨last, hlast, htip⟩ := hactive.tip
  have hpos := List.length_pos_of_ne_nil hactive.ne_nil
  have hat : ∀ {i : Nat} {hash : UInt256}, bc.chain.byHeight[i]? = some hash →
      ∃ blk, blocks[i]? = some blk ∧ blk.getHash = hash := by
    intro i hash hhash
    rw [hactive.byHeight, List.getElem?_map] at hhash
    exact Option.map_eq_some_iff.mp hhash
  refine ⟨?_, ⟨?_, ?_⟩, ?_, ?_, ?_⟩
  · rw [hactive.byHeight, hactive.height, List.length_map]
    omega
  · rw [hactive.height]
    omega
  · rw [hactive.byHeight, hactive.height, List.getElem?_map, show ((blocks.length : Int) - 1).toNat = blocks.length - 1 by
      omega, ← List.getLast?_eq_getElem?, hlast, htip]
    rfl
  · rw [List.nodup_iff_getElem?_ne_getElem?]
    intro i j hij hj hsame
    rw [hactive.byHeight, List.length_map] at hj
    obtain ⟨b, hb⟩ : ∃ b, blocks[j]? = some b := ⟨_, List.getElem?_eq_getElem hj⟩
    obtain ⟨a, ha⟩ : ∃ a, blocks[i]? = some a := ⟨_, List.getElem?_eq_getElem (by omega)⟩
    rw [hactive.byHeight, List.getElem?_map, List.getElem?_map, ha, hb] at hsame
    have := hactive.index_unique ha hb (Option.some.inj hsame)
    omega
  · intro i hash hhash
    obtain ⟨blk, hblk, rfl⟩ := hat hhash
    refine ⟨_, blk, hactive.indexed i blk hblk, hactive.stored blk (List.mem_of_getElem? hblk), rfl, rfl, ?_, rfl,
      hactive.proofOfWork hblk⟩
    intro hi
    have hlt := (List.getElem?_eq_some_iff.mp hblk).1
    obtain ⟨prev, hprev⟩ : ∃ prev, blocks[i - 1]? = some prev := ⟨_, List.getElem?_eq_getElem (by omega)⟩
    have hnext : blocks[i - 1 + 1]? = some blk := by rw [Nat.sub_add_cancel hi, hblk]
    have hparent := (checkBlockHeader_some_eq_ok_iff.mp (hactive.linked (i - 1) prev blk hprev hnext)).2.1
    rw [hactive.byHeight, List.getElem?_map, hprev]
    exact congrArg some hparent.symm
  · intro i j hash hash' entry entry' hij hi hj hentry hentry'
    obtain ⟨a, ha, rfl⟩ := hat hi
    obtain ⟨b, hb, rfl⟩ := hat hj
    rw [hactive.indexed i a ha] at hentry
    rw [hactive.indexed j b hb] at hentry'
    cases hentry
    cases hentry'
    exact hactive.linked.timestamp_lt hij ha hb

/-- Every state that deliveries reach from a fresh start is well formed. A read
    past the end of `byHeight` at a retarget may return anything. -/
theorem reachable_chainWellFormed {params : ChainParams} {bc : CBlockchain} (hreachable : Reachable params bc) :
    ChainWellFormed bc := by
  obtain ⟨blocks, hactive⟩ := hreachable.active
  exact hactive.wellFormed

end Representation

section

attribute [local instance] toolCrypto zeroMemory

theorem chainWellFormed_after_reorganisation :
    ∃ bc, regtestAfter [firstBlock, heavyBlock] = some bc ∧ ChainWellFormed bc := by
  obtain ⟨bc, hbc, -, -⟩ := regtestAfter_reorganised
  exact ⟨bc, hbc, reachable_chainWellFormed (reachable_of_regtestAfter hbc)⟩

end

section Replay

variable [Crypto]

/-- A coin after a replay was there before, or one of the blocks made it at its height. -/
theorem replay_made {h : Nat} {blocks : List CBlock} {view view' : CCoinsView}
    (hreplay : replay h view blocks = .ok view') {out : COutPoint} {coin : CUTXO} (hcoin : view'.getCoin out = some coin) :
    view.getCoin out = some coin ∨ h ≤ coin.height ∧ coin.height < h + blocks.length ∧
      ∃ tx ∈ blocks.flatMap CBlock.vtx, tx.Made out coin := by
  induction blocks generalizing h view with
  | nil =>
    cases hreplay
    exact Or.inl hcoin
  | cons blk rest ih =>
    obtain ⟨⟨mid, fees⟩, hcheck, hrest⟩ := bind_eq_ok_iff.mp hreplay
    rw [List.length_cons, List.flatMap_cons]
    obtain hmid | ⟨hlow, hhigh, tx, htx, hmade⟩ := ih hrest
    · obtain hold | ⟨hheight, tx, htx, hmade⟩ := checkBlock_made hcheck hmid
      · exact Or.inl hold
      · exact Or.inr ⟨by omega, by omega, tx, List.mem_append_left _ htx, hmade⟩
    · exact Or.inr ⟨by omega, by omega, tx, List.mem_append_right _ htx, hmade⟩

variable [Memory]

/-- The blocks of `byHeight[0..height]`, read back from storage. -/
def CBlockchain.readChain (bc : CBlockchain) : Option (List CBlock) :=
  (bc.chain.byHeight.take (bc.chain.height + 1).toNat).mapM fun hash => (bc.storage.readBlock hash).1

theorem Active.readChain {params : ChainParams} {bc : CBlockchain} {blocks : List CBlock}
    (hactive : Active params bc blocks) : bc.readChain = some blocks := by
  have hwhole : (bc.chain.byHeight.take (bc.chain.height + 1).toNat) = blocks.map CBlock.getHash := by
    rw [hactive.byHeight, hactive.height]
    apply List.take_of_length_le
    rw [List.length_map]
    omega
  have hread : ∀ (read : List CBlock), (∀ blk ∈ read, bc.storage.stored blk.getHash = some blk) →
      (read.map CBlock.getHash).mapM (fun hash => (bc.storage.readBlock hash).1) = some read := by
    intro read hstored
    induction read with
    | nil => rfl
    | cons blk rest ih =>
      rw [List.forall_mem_cons] at hstored
      rw [List.map_cons, List.mapM_cons, CBlockStorage.readBlock_eq, hstored.1, ih hstored.2]
      rfl
  rw [CBlockchain.readChain, hwhole]
  exact hread blocks hactive.stored

/-- The view that the node maintains is the one that a full replay of the stored
    active chain computes. -/
theorem reachable_replay {params : ChainParams} {bc : CBlockchain} (hreachable : Reachable params bc) :
    ∃ blocks, bc.readChain = some blocks ∧ replay 0 .empty blocks = .ok bc.chain.view := by
  obtain ⟨blocks, hactive⟩ := hreachable.active
  exact ⟨blocks, hactive.readChain, hactive.replayed⟩

end Replay

section

attribute [local instance] toolCrypto zeroMemory

theorem replay_after_reorganisation : ∃ bc, regtestAfter [firstBlock, heavyBlock] = some bc ∧
    ∃ blocks, bc.readChain = some blocks ∧ replay 0 .empty blocks = .ok bc.chain.view := by
  obtain ⟨bc, hbc, -, -⟩ := regtestAfter_reorganised
  exact ⟨bc, hbc, reachable_replay (reachable_of_regtestAfter hbc)⟩

end

section Atomicity

variable [Crypto] [Memory]

/-- The chain state, the files and every readable block are the same. -/
structure CBlockchain.Unchanged (bc bc' : CBlockchain) : Prop where
  chain : bc'.chain = bc.chain
  disk : bc'.storage.disk = bc.storage.disk
  stored : ∀ hash, bc'.storage.stored hash = bc.storage.stored hash

theorem CBlockchain.Touched.unchanged {bc bc' : CBlockchain} (htouched : CBlockchain.Touched bc bc') :
    bc.Unchanged bc' :=
  ⟨htouched.chain_eq, htouched.disk_eq, htouched.stored_eq⟩

/-- A delivery that returns a failure changes nothing, from whatever state and at
    whatever step it fails; neither does the delivery of a block already indexed. -/
theorem tryAcceptBlock_atomic {params : ChainParams} {blk : CBlock} {bc bc' : CBlockchain} {r : ReorgResult}
    (haccept : CBlockchain.tryAcceptBlock params blk bc = .ok (r, bc'))
    (hnothing : r.ok = false ∨ bc.haveBlock blk.getHash = true) : bc.Unchanged bc' := by
  cases CBlockchain.delivered_of_tryAcceptBlock haccept with
  | known hknown => exact CBlockchain.Touched.unchanged (Or.inl rfl)
  | rejected message hunknown htouched => exact htouched.unchanged
  | extended hunknown =>
    rcases hnothing with hfailed | hknown
    · cases hfailed
    · rw [hunknown] at hknown
      cases hknown
  | reorganised hunknown =>
    rcases hnothing with hfailed | hknown
    · cases hfailed
    · rw [hunknown] at hknown
      cases hknown

end Atomicity

section

attribute [local instance] toolCrypto zeroMemory

theorem tryAcceptBlock_atomic_rival : ∃ bc r bc', regtestAfter [firstBlock] = some bc ∧
    CBlockchain.tryAcceptBlock regtestParams rivalBlock bc = .ok (r, bc') ∧ r.ok = false ∧ bc.Unchanged bc' := by
  have hevaluated : (regtestAfter [firstBlock]).map (fun bc =>
      (CBlockchain.tryAcceptBlock regtestParams rivalBlock bc).toOption.map fun result => result.1) =
        some (some { error := "fork has lower chain work" }) := by
    rw [← tableCrypto_eq digests_right]
    decide +kernel
  obtain ⟨bc, hbc, hresult⟩ := Option.map_eq_some_iff.mp hevaluated
  obtain ⟨⟨r, bc'⟩, haccept, hr⟩ := Option.map_eq_some_iff.mp hresult
  have hok : CBlockchain.tryAcceptBlock regtestParams rivalBlock bc = .ok (r, bc') := by
    cases htry : CBlockchain.tryAcceptBlock regtestParams rivalBlock bc with
    | error sum =>
      rw [htry] at haccept
      cases haccept
    | ok result =>
      rw [htry] at haccept
      cases haccept
      rfl
  subst hr
  exact ⟨bc, _, bc', hbc, hok, rfl, tryAcceptBlock_atomic hok (Or.inl rfl)⟩

end

end cdx
