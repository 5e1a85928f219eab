import Cdx.Blockchain.Active
import Cdx.Storage.Restore

namespace cdx

/-- The coinbase of every network's genesis block. -/
def genesisTx : CTransaction := genesisCoinbase (Int64.ofInt INITIAL_BLOCK_REWARD) genesisMessage length_genesisMessage

theorem length_serializeGenesis {g : CBlock} (hvtx : g.vtx = [genesisTx]) : (serializeBlock g).length < 2 ^ 63 := by
  have htx : (writeVarInt 1 ++ serializeTransaction genesisTx).length < 1000 := by decide +kernel
  have hser : serializeBlock g = serializeBlockHeader g.header ++ (writeVarInt 1 ++ serializeTransaction genesisTx) := by
    simp [serializeBlock, hvtx]
  rw [hser, List.length_append, length_serializeBlockHeader]
  omega

variable [Crypto]

theorem minedGenesis_spec {params : ChainParams} {g : CBlock} (hmined : CBlockchain.minedGenesis params = some g) :
    g.vtx = [genesisTx] ∧ g.header.prevBlockHash = 0 ∧ checkProofOfWork g.getHash g.header.bits = true := by
  unfold CBlockchain.minedGenesis at hmined
  simp only at hmined
  split at hmined
  next hheader =>
    cases hmined
    refine ⟨rfl, rfl, ?_⟩
    unfold checkBlockHeader at hheader
    split at hheader
    · cases hheader
    next hpow => exact Bool.of_not_eq_false hpow
  next =>
    split at hmined
    · cases hmined
    next header hfound =>
      cases hmined
      obtain ⟨⟨nonce, hheader⟩, hpow⟩ := mineGenesis_spec hfound
      refine ⟨rfl, ?_, hpow⟩
      rw [hheader]
      rfl

variable [Memory]

/-- A block that is not indexed has a hash unlike any on the active chain. -/
theorem Active.hash_ne {params : ChainParams} {bc : CBlockchain} {blocks : List CBlock}
    (hactive : Active params bc blocks) {blk : CBlock} (hunknown : bc.haveBlock blk.getHash = false) {old : CBlock}
    (hold : old ∈ blocks) : old.getHash ≠ blk.getHash := by
  intro hsame
  obtain ⟨i, hi⟩ := List.mem_iff_getElem?.mp hold
  have hindexed := hactive.indexed i old hi
  rw [CBlockchain.haveBlock, ← hsame, Std.ExtTreeMap.contains_eq_isSome_getElem?] at hunknown
  rw [CBlockchain.getIndex] at hindexed
  rw [hindexed] at hunknown
  cases hunknown

/-- Connecting a block to the first `k` blocks of the active chain. Both a direct
    extension and a reorganisation leave a state like this. -/
theorem Active.connect {params : ChainParams} {bc bc' : CBlockchain} {blocks : List CBlock}
    (hactive : Active params bc blocks) {k : Nat} (hk : 0 < k) (hle : k ≤ blocks.length) {blk parent : CBlock}
    (hparent : blocks[k - 1]? = some parent) (hunknown : bc.haveBlock blk.getHash = false)
    (hheader : checkBlockHeader blk.header (some parent.header) params = .ok ()) {base view : CCoinsView} {fees : Int}
    (hbase : replay 0 .empty (blocks.take k) = .ok base) (hcheck : checkBlock blk k base = .ok (view, fees))
    (hbyHeight : bc'.chain.byHeight = (blocks.take k).map CBlock.getHash ++ [blk.getHash])
    (hheight : bc'.chain.height = k) (htip : bc'.chain.tipHash = blk.getHash) (hview : bc'.chain.view = view)
    (hindex : bc'.chain.index = bc.chain.index.insert blk.getHash
      (blk.indexEntry k (chainWorkOf (blocks.take k) + getBlockWork blk.header.bits) false))
    (hself : bc'.storage.stored blk.getHash = some blk)
    (hothers : ∀ old ∈ blocks, bc'.storage.stored old.getHash = some old) :
    Active params bc' (blocks.take k ++ [blk]) := by
  have hlength : (blocks.take k).length = k := by rw [List.length_take]; omega
  have hlookup : ∀ hash, bc'.getIndex hash = if hash = blk.getHash then
      some (blk.indexEntry k (chainWorkOf (blocks.take k) + getBlockWork blk.header.bits) false)
        else bc.getIndex hash := by
    intro hash
    rw [CBlockchain.getIndex, hindex]
    exact orderedMap.lookup_insert ..
  have hlast : (blocks.take k).getLast? = some parent := by
    rw [List.getLast?_eq_getElem?, hlength, List.getElem?_take_of_lt (by omega), hparent]
  refine ⟨by simp, ?_, ?_, ⟨blk, by simp, htip⟩, ?_, ?_, ?_, ?_, ?_, ?_⟩
  · rw [hbyHeight, List.map_append]
    rfl
  · rw [hheight, List.length_append, hlength]
    simp
  · intro old hold
    rcases List.mem_append.mp hold with hold | hold
    · exact hothers old (List.mem_of_mem_take hold)
    · cases List.mem_singleton.mp hold
      exact hself
  · rw [replay_append, hbase, bind_ok, hlength, Nat.zero_add, hview]
    exact replay_singleton_eq_ok_iff.mpr ⟨fees, hcheck⟩
  · apply (hactive.linked.take k).snoc
    intro last hlast'
    rw [hlast] at hlast'
    cases hlast'
    exact hheader
  · intro g hg
    rw [List.getElem?_append_left (by omega), List.getElem?_take_of_lt hk] at hg
    exact hactive.genesis g hg
  · intro i old hold
    have hi := (List.getElem?_eq_some_iff.mp hold).1
    rw [List.length_append, hlength, List.length_singleton] at hi
    by_cases hnew : i = k
    · subst hnew
      have hself : (blocks.take i ++ [blk])[i]? = some blk := by
        rw [List.getElem?_append_right (by omega), hlength, Nat.sub_self]
        rfl
      rw [hself] at hold
      cases hold
      have hwhole : (blocks.take i ++ [blk]).take (i + 1) = blocks.take i ++ [blk] :=
        List.take_of_length_le (by rw [List.length_append, hlength]; rfl)
      rw [hlookup, if_pos rfl, hwhole, chainWorkOf_snoc, decide_eq_false (by omega)]
    · rw [List.getElem?_append_left (by omega), List.getElem?_take_of_lt (by omega)] at hold
      rw [hlookup, if_neg (hactive.hash_ne hunknown (List.mem_of_getElem? hold)), hactive.indexed i old hold,
        List.take_append_of_le_length (by omega), List.take_take, min_eq_left (by omega)]
  · intro hash entry hentry
    rw [hlookup] at hentry
    split at hentry
    · cases hentry
      exact Int.natCast_nonneg k
    · exact hactive.heights hash entry hentry

namespace CBlockchain

/-- The chain after `Init` on an empty data directory. -/
def fresh (params : ChainParams) : Option CBlockchain :=
  match init params {} with
  | .ok (.ok (), bc) => some bc
  | _ => none

/-- The chain after one call of `TryAcceptBlock`. -/
def deliver (params : ChainParams) (bc : CBlockchain) (blk : CBlock) : Option CBlockchain :=
  match tryAcceptBlock params blk bc with
  | .ok (_, bc') => some bc'
  | .error _ => none

end CBlockchain

/-- Loading the index after the first write finds the entry already in memory. -/
theorem loadIndex_genesisState {g : CBlock} (hsize : (serializeBlock g).length < 2 ^ 63) (view : CCoinsView) :
    (CBlockchain.genesisState {} g view).storage.loadIndex =
      { (CBlockchain.genesisState {} g view).storage with
        loaded := true, index := (({} : CBlockStorage).writeBlock g 0).index } := by
  apply CBlockStorage.loadIndex_of_saved rfl rfl
  · rw [CBlockStorage.writeBlock_empty]
    change ((∅ : Std.ExtTreeMap UInt256 BlockPos).insert _ _).size ≤ _
    rw [Std.ExtTreeMap.size_insert]
    simp
  · intro hash pos hpos
    rw [CBlockStorage.writeBlock_empty] at hpos
    replace hpos := (orderedMap.lookup_insert ..).symm.trans hpos
    split at hpos
    · cases hpos
      exact BlockPos.Fits.storable
        ⟨le_refl _, show (0 : Int) ≤ INT64_MAX by decide, show 0 < 2 ^ 31 by decide, show 0 < 2 ^ 63 by decide, hsize⟩
    · simp at hpos
  · exact fun _ _ h => h

theorem stored_genesis {g : CBlock} (hblk : g.Decodable) (hsize : (serializeBlock g).length < 2 ^ 63) (view : CCoinsView) :
    (CBlockchain.genesisState {} g view).storage.stored g.getHash = some g := by
  rw [CBlockStorage.stored, loadIndex_genesisState hsize]
  exact CBlockStorage.lookup_writeBlock_self {} hblk 0

/-- The state that `ApplyGenesis` builds on an empty directory holds the genesis block. -/
theorem genesisState_active {params : ChainParams} {g : CBlock} (hmined : CBlockchain.minedGenesis params = some g)
    {view : CCoinsView} {fees : Int} (hcheck : checkBlock g 0 .empty = .ok (view, fees)) :
    Active params (CBlockchain.genesisState {} g view) [g] := by
  obtain ⟨hvtx, hprev, hpow⟩ := minedGenesis_spec hmined
  have hentry : { g.indexEntry 0 (getBlockWork g.header.bits) true with prevHash := 0 } =
      g.indexEntry 0 (getBlockWork g.header.bits) true := by
    rw [CBlock.indexEntry, hprev]
  have hlookup : ∀ hash, (CBlockchain.genesisState {} g view).getIndex hash =
      if hash = g.getHash then some (g.indexEntry 0 (getBlockWork g.header.bits) true) else none := by
    intro hash
    rw [← hentry]
    refine (orderedMap.lookup_insert ..).trans ?_
    simp
  refine ⟨by simp, rfl, rfl, ⟨g, rfl, rfl⟩, ?_, ?_, ?_, ?_, ?_, ?_⟩
  · intro blk hblk
    cases List.mem_singleton.mp hblk
    exact stored_genesis (decodable_of_checkBlock hcheck) (length_serializeGenesis hvtx) view
  · exact replay_singleton_eq_ok_iff.mpr ⟨fees, hcheck⟩
  · intro i prev blk hprev hblk
    simp at hblk
  · intro g' hg'
    cases hg'
    exact hpow
  · intro i blk hblk
    cases i with
    | zero =>
      cases hblk
      rw [hlookup, if_pos rfl]
      simp [chainWorkOf_singleton]
    | succ i => simp at hblk
  · intro hash entry hfound
    rw [hlookup] at hfound
    split at hfound
    · cases hfound
      exact le_refl _
    · cases hfound

omit [Memory] in
/-- What `ApplyGenesis` does when it succeeds. -/
theorem applyGenesis_eq_ok {params : ChainParams} {bc bc' : CBlockchain}
    (happly : CBlockchain.applyGenesis params bc = .ok (.ok (), bc')) :
    ∃ g view fees, CBlockchain.minedGenesis params = some g ∧ checkBlock g 0 .empty = .ok (view, fees) ∧
      bc' = CBlockchain.genesisState { bc with chain := { bc.chain with view := .empty } } g view := by
  unfold CBlockchain.applyGenesis at happly
  cases hmined : CBlockchain.minedGenesis params with
  | none =>
    simp only [hmined] at happly
    cases happly
  | some g =>
    cases hcheck : checkBlock g 0 .empty with
    | error reject =>
      cases reject <;>
      · simp only [hmined, show ({} : CCoinsView) = .empty from rfl, hcheck] at happly
        cases happly
    | ok result =>
      obtain ⟨view, fees⟩ := result
      simp only [hmined, show ({} : CCoinsView) = .empty from rfl, hcheck, Except.ok.injEq, Prod.mk.injEq,
        true_and] at happly
      exact ⟨g, view, fees, rfl, hcheck, happly.symm⟩

/-- A fresh node holds the genesis block, and nothing else. -/
theorem fresh_active {params : ChainParams} {bc : CBlockchain} (hfresh : CBlockchain.fresh params = some bc) :
    ∃ g view fees, CBlockchain.minedGenesis params = some g ∧ checkBlock g 0 .empty = .ok (view, fees) ∧
      bc = CBlockchain.genesisState {} g view ∧ Active params bc [g] := by
  have hinit : CBlockchain.init params {} = CBlockchain.applyGenesis params {} := rfl
  unfold CBlockchain.fresh at hfresh
  rw [hinit] at hfresh
  split at hfresh
  next bc' happly =>
    cases hfresh
    obtain ⟨g, view, fees, hmined, hcheck, hresult⟩ := applyGenesis_eq_ok happly
    refine ⟨g, view, fees, hmined, hcheck, hresult, ?_⟩
    rw [hresult]
    exact genesisState_active hmined hcheck
  · cases hfresh

/-- What a delivery does to the chain of blocks that the node holds: nothing, one
    more block at its end, or one block in the place of everything above its parent. -/
inductive ChainStep (params : ChainParams) (blk : CBlock) (bc : CBlockchain) (blocks : List CBlock) :
    CBlockchain → List CBlock → Prop where
  | kept {bc' : CBlockchain} (htouched : CBlockchain.Touched bc bc') : ChainStep params blk bc blocks bc' blocks
  | extended {bc' : CBlockchain} {last : CBlock} {view : CCoinsView} {fees : Int}
      (hunknown : bc.haveBlock blk.getHash = false) (hlast : blocks.getLast? = some last)
      (hheader : checkBlockHeader blk.header (some last.header) params = .ok ())
      (hbits : blk.header.bits = requiredBits params blocks last.header)
      (hcheck : checkBlock blk blocks.length bc.chain.view = .ok (view, fees))
      (hresult : bc' = bc.touch.applyBlock blk blocks.length
        (last.indexEntry (blocks.length - 1 : Nat) (chainWorkOf blocks) (decide (blocks.length - 1 = 0))) view) :
      ChainStep params blk bc blocks bc' (blocks ++ [blk])
  | reorganised {bc' : CBlockchain} {forkHeight : Nat} {parent : CBlock} {view : CCoinsView}
      (hunknown : bc.haveBlock blk.getHash = false) (hparent : blocks[forkHeight]? = some parent)
      (hfork : forkHeight + 1 < blocks.length)
      (hgenesis : ∀ g : CBlock, blocks[0]? = some g → checkBlockHeader g.header none params = .ok ())
      (hheader : checkBlockHeader blk.header (some parent.header) params = .ok ())
      (hreplay : replay 0 .empty (blocks.take (forkHeight + 1) ++ [blk]) = .ok view)
      (hwork : bc.chain.chainWork < chainWorkOf (blocks.take (forkHeight + 1) ++ [blk]))
      (hresult : bc' = bc.touch.replaceChain blk view
        ((blocks.take (forkHeight + 1) ++ [blk]).map CBlock.getHash)) :
      ChainStep params blk bc blocks bc' (blocks.take (forkHeight + 1) ++ [blk])

/-- The blocks collected for a fork are the start of the active chain. -/
theorem Active.collectFork {params : ChainParams} {bc mid : CBlockchain} {blocks collected : List CBlock}
    (hactive : Active params bc blocks) {count : Nat} (hpos : 0 < count)
    (hcollect : CBlockchain.collectFork count 0 bc = (.ok collected, mid)) :
    count ≤ blocks.length ∧ collected = blocks.take count ∧ mid = bc.touch := by
  obtain ⟨hlen, hreads⟩ := CBlockchain.collectFork_eq_ok (congrArg Prod.fst hcollect)
  have hread : ∀ i < count, blocks[i]? = collected[i]? := by
    intro i hi
    obtain ⟨blk, hblk⟩ : ∃ blk, collected[i]? = some blk := ⟨_, List.getElem?_eq_getElem (by omega)⟩
    have hat := hreads i blk hblk
    rw [Nat.zero_add, hactive.getBlockByHeight] at hat
    rw [hat, hblk]
  have hle : count ≤ blocks.length := by
    have hlast := hread (count - 1) (by omega)
    rw [List.getElem?_eq_getElem (by omega : count - 1 < collected.length)] at hlast
    have := (List.getElem?_eq_some_iff.mp hlast).1
    omega
  refine ⟨hle, ?_, ?_⟩
  · apply List.ext_getElem?
    intro i
    by_cases hi : i < count
    · rw [List.getElem?_take_of_lt hi, hread i hi]
    · rw [List.getElem?_eq_none (by omega), List.getElem?_eq_none (by rw [List.length_take]; omega)]
  · -- The first read already loads the index, and later reads find it loaded.
    obtain ⟨rest, rfl⟩ : ∃ rest, count = rest + 1 := ⟨count - 1, by omega⟩
    have hfirst : (bc.getBlockByHeight (0 : Nat)).2 = bc.touch := by
      have hlength := List.length_pos_of_ne_nil hactive.ne_nil
      unfold CBlockchain.getBlockByHeight CBlockchain.readAt
      rw [if_neg (by rw [hactive.height]; omega), hactive.byHeight, List.getElem?_map, Int.toNat_natCast,
        List.getElem?_eq_getElem hlength]
      rfl
    obtain ⟨blk, hblk⟩ : ∃ blk, collected[0]? = some blk := ⟨_, List.getElem?_eq_getElem (by omega)⟩
    have hvalue := hreads 0 blk hblk
    have hpair : bc.getBlockByHeight (0 : Nat) = (some blk, bc.touch) := Prod.ext hvalue hfirst
    unfold CBlockchain.collectFork at hcollect
    rw [hpair] at hcollect
    simp only at hcollect
    have htouched := CBlockchain.collectFork_snd rest (0 + 1) bc.touch
    split at hcollect
    · cases hcollect
    next others bc'' hothers =>
      rw [hothers] at htouched
      cases hcollect
      exact htouched.of_touch

/-- The node's transition refines the transition on lists of blocks. -/
theorem Active.chainStep {params : ChainParams} {blk : CBlock} {bc bc' : CBlockchain} {r : ReorgResult}
    {blocks : List CBlock} (hactive : Active params bc blocks) (hdelivered : CBlockchain.Delivered params blk bc r bc') :
    ∃ blocks', ChainStep params blk bc blocks bc' blocks' := by
  obtain ⟨last, hlast, htip⟩ := hactive.tip
  have hpos := List.length_pos_of_ne_nil hactive.ne_nil
  cases hdelivered with
  | known hknown => exact ⟨blocks, .kept (Or.inl rfl)⟩
  | rejected message hunknown htouched => exact ⟨blocks, .kept htouched⟩
  | @extended prevIdx prevBlk newView fees _ hunknown hindex hparent hprev hheader hbits hcheck hresult =>
    have hmem : last ∈ blocks := List.mem_of_getLast? hlast
    rw [hparent, htip, hactive.stored last hmem] at hprev
    cases hprev
    rw [hparent, htip, hactive.last_indexed hlast] at hindex
    cases hindex
    have hheight : ((blocks.length - 1 : Nat) : Int) = (blocks.length : Int) - 1 := by omega
    simp only [CBlock.indexEntry, hheight, hactive.firstTime] at hbits
    simp only [CBlock.indexEntry, hheight, Int.sub_add_cancel] at hcheck
    refine ⟨blocks ++ [blk], .extended hunknown hlast hheader hbits hcheck ?_⟩
    rw [hresult]
    simp only [CBlock.indexEntry, hheight, Int.sub_add_cancel]
  | @reorganised prevIdx collected freshView newByHeight mid _ hunknown hindex hfork hwork hcollect hvalidate hresult =>
    have hheight := hactive.heights _ _ hindex
    obtain ⟨hle, hcollected, hmid⟩ := hactive.collectFork (by omega) hcollect
    obtain ⟨forkHeight, hforkHeight⟩ : ∃ n : Nat, prevIdx.height = n := ⟨prevIdx.height.toNat, by omega⟩
    have hcount : (prevIdx.height + 1).toNat = forkHeight + 1 := by omega
    rw [hcount] at hle hcollected
    obtain ⟨hreplay, hhashes, hgenesis, hlinked⟩ := validateFork_eq_ok hvalidate
    rw [List.nil_append] at hhashes
    subst hcollected hmid hhashes
    have hlength : (blocks.take (forkHeight + 1)).length = forkHeight + 1 := by rw [List.length_take]; omega
    obtain ⟨parent, hparent⟩ : ∃ parent, blocks[forkHeight]? = some parent := ⟨_, List.getElem?_eq_getElem hle⟩
    have hheader : checkBlockHeader blk.header (some parent.header) params = .ok () := by
      apply hlinked forkHeight parent blk
      · rw [List.getElem?_append_left (by omega), List.getElem?_take_of_lt (by omega), hparent]
      · rw [List.getElem?_append_right (by omega), hlength, Nat.sub_self]
        rfl
    have hprevHash := (checkBlockHeader_some_eq_ok_iff.mp hheader).2.1
    change blk.header.prevBlockHash = parent.getHash at hprevHash
    rw [hprevHash, hactive.indexed forkHeight parent hparent] at hindex
    cases hindex
    refine ⟨blocks.take (forkHeight + 1) ++ [blk], .reorganised hunknown hparent ?_ ?_ hheader hreplay ?_ hresult⟩
    · by_contra hend
      apply hfork
      have hsame : blocks[blocks.length - 1]? = some parent := by
        rw [show blocks.length - 1 = forkHeight by omega, hparent]
      rw [← List.getLast?_eq_getElem?, hlast] at hsame
      cases hsame
      rw [hprevHash, htip]
    · intro g hg
      apply hgenesis
      rw [List.getElem?_append_left (by omega), List.getElem?_take_of_lt (by omega), hg]
    · rw [chainWorkOf_snoc]
      exact hwork

/-- The chain that a reorganisation leaves, with the index entry of the new block. -/
theorem Active.replaceChain_chain {params : ChainParams} {bc : CBlockchain} {blocks : List CBlock}
    (hactive : Active params bc blocks) {forkHeight : Nat} {parent blk : CBlock}
    (hparent : blocks[forkHeight]? = some parent) (hprev : blk.header.prevBlockHash = parent.getHash)
    (view : CCoinsView) :
    (bc.touch.replaceChain blk view ((blocks.take (forkHeight + 1) ++ [blk]).map CBlock.getHash)).chain =
      { view := view
        height := (forkHeight + 1 : Nat)
        tipHash := blk.getHash
        byHeight := (blocks.take (forkHeight + 1)).map CBlock.getHash ++ [blk.getHash]
        index := bc.chain.index.insert blk.getHash (blk.indexEntry (forkHeight + 1 : Nat)
          (chainWorkOf (blocks.take (forkHeight + 1)) + getBlockWork blk.header.bits) false)
        chainWork := bc.chain.chainWork } := by
  have hlt := (List.getElem?_eq_some_iff.mp hparent).1
  have hheight : (((blocks.take (forkHeight + 1) ++ [blk]).map CBlock.getHash).length : Int) - 1 =
      (forkHeight + 1 : Nat) := by
    rw [List.length_map, List.length_append, List.length_take, List.length_singleton]
    omega
  have hindexed := hactive.indexed forkHeight parent hparent
  rw [CBlockchain.getIndex] at hindexed
  have hnonzero : ((forkHeight + 1 : Nat) : Int) ≠ 0 := by omega
  unfold CBlockchain.replaceChain CBlockchain.addIndexEntry
  simp only [hheight, if_true, CBlockchain.getIndex, CBlockchain.touch, hprev, hindexed,
    beq_eq_false_iff_ne.mpr hnonzero]
  rw [List.map_append]
  rfl

/-- Every step keeps the state and its list of blocks together. -/
theorem Active.step {params : ChainParams} {blk : CBlock} {bc bc' : CBlockchain} {blocks blocks' : List CBlock}
    (hactive : Active params bc blocks) (hstep : ChainStep params blk bc blocks bc' blocks') :
    Active params bc' blocks' := by
  have hpos := List.length_pos_of_ne_nil hactive.ne_nil
  cases hstep with
  | kept htouched => exact hactive.touched htouched
  | @extended last view fees hunknown hlast hheader hbits hcheck hresult =>
    have hparent : blocks[blocks.length - 1]? = some last := by rw [← List.getLast?_eq_getElem?, hlast]
    have hdecodable := decodable_of_checkBlock hcheck
    have hstored : ∀ hash, bc'.storage.stored hash =
        (bc.storage.loadIndex.writeBlock blk blocks.length).stored hash := by
      intro hash
      have hloaded : (bc.storage.loadIndex.writeBlock blk blocks.length).loaded = true := bc.storage.loadIndex_loaded
      rw [hresult, CBlockchain.applyBlock_storage, CBlockchain.touch_storage,
        CBlockStorage.stored_saveChainState hloaded]
    have hconnect : Active params bc' (blocks.take blocks.length ++ [blk]) := by
      apply hactive.connect hpos le_rfl hparent hunknown hheader
      · rw [List.take_length]
        exact hactive.replayed
      · exact hcheck
      · rw [hresult, CBlockchain.applyBlock_chain, List.take_length, ← hactive.byHeight]
        rfl
      · rw [hresult, CBlockchain.applyBlock_chain]
      · rw [hresult, CBlockchain.applyBlock_chain]
      · rw [hresult, CBlockchain.applyBlock_chain]
      · rw [hresult, CBlockchain.applyBlock_chain, List.take_length]
        rfl
      · rw [hstored, CBlockStorage.stored_writeBlock_self _ hdecodable]
      · intro old hold
        rw [hstored]
        exact CBlockStorage.stored_writeBlock_of_ne (hactive.stored old hold) (hactive.hash_ne hunknown hold) _
    rwa [List.take_length] at hconnect
  | @reorganised forkHeight parent view hunknown hparent hfork hgenesis hheader hreplay hwork hresult =>
    obtain ⟨base, hbase, hlast⟩ := replay_append_eq_ok hreplay
    obtain ⟨fees, hcheck⟩ := replay_singleton_eq_ok_iff.mp hlast
    have hlength : (blocks.take (forkHeight + 1)).length = forkHeight + 1 := by rw [List.length_take]; omega
    rw [Nat.zero_add, hlength] at hcheck
    have hdecodable := decodable_of_checkBlock hcheck
    have hprev := (checkBlockHeader_some_eq_ok_iff.mp hheader).2.1
    have hchain := hactive.replaceChain_chain hparent hprev view
    rw [← hresult] at hchain
    have hstorage := congrArg CBlockchain.storage hresult
    rw [CBlockchain.replaceChain_storage, CBlockchain.touch_storage] at hstorage
    apply hactive.connect (Nat.succ_pos forkHeight) (by omega) hparent hunknown hheader hbase hcheck
    · rw [hchain]
    · rw [hchain]
    · rw [hchain]
    · rw [hchain]
    · rw [hchain]
    · rw [hstorage, CBlockStorage.stored_writeBlock_self _ hdecodable]
    · intro old hold
      rw [hstorage]
      exact CBlockStorage.stored_writeBlock_of_ne (hactive.stored old hold) (hactive.hash_ne hunknown hold) _

/-- One call of `TryAcceptBlock` on a node that holds a list of blocks. -/
theorem Active.deliver {params : ChainParams} {blk : CBlock} {bc bc' : CBlockchain} {blocks : List CBlock}
    (hactive : Active params bc blocks) (hdeliver : CBlockchain.deliver params bc blk = some bc') :
    ∃ blocks', ChainStep params blk bc blocks bc' blocks' ∧ Active params bc' blocks' := by
  unfold CBlockchain.deliver at hdeliver
  split at hdeliver
  next r bc'' haccept =>
    cases hdeliver
    obtain ⟨blocks', hstep⟩ := hactive.chainStep (CBlockchain.delivered_of_tryAcceptBlock haccept)
    exact ⟨blocks', hstep, hactive.step hstep⟩
  · cases hdeliver

theorem active_deliver {params : ChainParams} {blk : CBlock} {bc bc' : CBlockchain}
    (hbc : ∃ blocks, Active params bc blocks) (hdeliver : CBlockchain.deliver params bc blk = some bc') :
    ∃ blocks, Active params bc' blocks := by
  obtain ⟨blocks, hactive⟩ := hbc
  obtain ⟨blocks', -, hactive'⟩ := hactive.deliver hdeliver
  exact ⟨blocks', hactive'⟩

/-- The states that calls of `TryAcceptBlock` reach from a fresh `Init`. -/
def Reachable (params : ChainParams) (bc : CBlockchain) : Prop :=
  ∃ start events, CBlockchain.fresh params = some start ∧
    transition.run (CBlockchain.deliver params) start events = some bc

/-- Every reachable state holds a list of blocks. -/
theorem Reachable.active {params : ChainParams} {bc : CBlockchain} (hreachable : Reachable params bc) :
    ∃ blocks, Active params bc blocks := by
  obtain ⟨start, events, hfresh, hrun⟩ := hreachable
  obtain ⟨g, view, fees, -, -, -, hactive⟩ := fresh_active hfresh
  exact transition.run_invariant (I := fun bc => ∃ blocks, Active params bc blocks)
    (fun bc blk bc' _ hbc hdeliver => active_deliver hbc hdeliver) ⟨[g], hactive⟩ hrun

end cdx
