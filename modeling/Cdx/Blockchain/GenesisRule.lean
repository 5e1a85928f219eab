import Cdx.Blockchain.Restart

namespace cdx

section Search

variable [Crypto]

/-- The least nonce below the bound with which the header has its proof of work. -/
structure FirstNonce (hdr : CBlockHeader) (bound nonce : Nat) : Prop where
  below : nonce < bound
  works : checkProofOfWork { hdr with nonce := UInt32.ofNat nonce }.getHash hdr.bits = true
  least : ∀ n < nonce, checkProofOfWork { hdr with nonce := UInt32.ofNat n }.getHash hdr.bits = false

/-- The nonce loop of `ApplyGenesis` stops at the first nonce that works. -/
theorem mineGenesis_firstNonce {hdr found : CBlockHeader} {bound remaining nonce : Nat}
    (hbound : nonce + remaining = bound)
    (hbefore : ∀ n < nonce, checkProofOfWork { hdr with nonce := UInt32.ofNat n }.getHash hdr.bits = false)
    (hfound : mineGenesis hdr remaining nonce = some found) :
    ∃ n, FirstNonce hdr bound n ∧ found = { hdr with nonce := UInt32.ofNat n } := by
  induction remaining generalizing nonce hdr with
  | zero => cases hfound
  | succ remaining ih =>
    unfold mineGenesis at hfound
    by_cases hpow : checkProofOfWork { hdr with nonce := UInt32.ofNat nonce }.getHash hdr.bits = true
    · rw [if_pos hpow] at hfound
      cases hfound
      exact ⟨nonce, ⟨by omega, hpow, hbefore⟩, rfl⟩
    · rw [if_neg hpow] at hfound
      have htried : ∀ n < nonce + 1, checkProofOfWork { hdr with nonce := UInt32.ofNat n }.getHash hdr.bits = false := by
        intro n hn
        by_cases hlast : n = nonce
        · rw [hlast]
          exact Bool.of_not_eq_true hpow
        · exact hbefore n (by omega)
      -- The header is passed on with the nonce that failed; every nonce tried later replaces it.
      obtain ⟨n, hfirst, rfl⟩ := ih (by omega) (by exact htried) hfound
      exact ⟨n, ⟨hfirst.below, hfirst.works, hfirst.least⟩, rfl⟩

theorem FirstNonce.unique {hdr : CBlockHeader} {bound n m : Nat} (hn : FirstNonce hdr bound n)
    (hm : FirstNonce hdr bound m) : n = m := by
  rcases Nat.lt_trichotomy n m with hlt | heq | hlt
  · exact absurd hn.works (by rw [hm.least n hlt]; exact Bool.false_ne_true)
  · exact heq
  · exact absurd hm.works (by rw [hn.least m hlt]; exact Bool.false_ne_true)

/-- The hash that the parameters name for the genesis block. -/
def ChainParams.genesisHash (params : ChainParams) : UInt256 := UInt256.fromHexReversed (ascii params.genesisHashHex)

/-- The configured genesis block is the one of the configured hash, or the search for
    another nonce ends at it. -/
def GenesisFound (params : ChainParams) : Prop :=
  checkBlockHeader (getGenesisBlock params).header none params = .ok () ∨
    ∀ nonce, FirstNonce (getGenesisBlock params).header 0xffffffff nonce →
      { (getGenesisBlock params).header with nonce := UInt32.ofNat nonce }.getHash = params.genesisHash

theorem checkBlockHeader_genesis {hdr : CBlockHeader} {params : ChainParams} (hconfigured : params.genesisHashHex ≠ "")
    (hheader : checkBlockHeader hdr none params = .ok ()) : hdr.getHash = params.genesisHash := by
  unfold checkBlockHeader at hheader
  split at hheader
  · cases hheader
  simp only at hheader
  split at hheader
  · cases hheader
  next hmatches =>
    by_contra hne
    exact hmatches ⟨hconfigured, hne⟩

/-- Which hash the genesis block of `ApplyGenesis` has. -/
theorem minedGenesis_hash_iff {params : ChainParams} (hconfigured : params.genesisHashHex ≠ "") {g : CBlock}
    (hmined : CBlockchain.minedGenesis params = some g) : g.getHash = params.genesisHash ↔ GenesisFound params := by
  unfold CBlockchain.minedGenesis at hmined
  simp only at hmined
  split at hmined
  next hheader =>
    cases hmined
    exact ⟨fun _ => Or.inl hheader, fun _ => checkBlockHeader_genesis hconfigured hheader⟩
  next message hheader =>
    split at hmined
    · cases hmined
    next header hfound =>
      cases hmined
      obtain ⟨nonce, hfirst, rfl⟩ := mineGenesis_firstNonce (Nat.zero_add _) (fun n hn => absurd hn (Nat.not_lt_zero n))
        hfound
      constructor
      · intro hhash
        refine Or.inr ?_
        intro other hother
        rw [hother.unique hfirst]
        exact hhash
      · rintro (hpassed | hall)
        · rw [hheader] at hpassed
          cases hpassed
        · exact hall nonce hfirst

end Search

section Rule

variable [Crypto] [Memory]

/-- The storage has a chain state that loads, and at least one of its blocks. -/
def HoldsChain (storage : CBlockStorage) : Prop :=
  (storage.loadChainState .empty (-1) 0 []).ok = true ∧
    ∃ hash ∈ (storage.loadChainState .empty (-1) 0 []).byHeight, (storage.stored hash).isSome = true

/-- The index loop of `LoadFromStorage` leaves an empty index only if it reads no block. -/
theorem rebuildIndex_isEmpty_iff (hashes : List UInt256) (i : Nat) (storage : CBlockStorage)
    (index : Std.ExtTreeMap UInt256 CBlockIndex) :
    (CBlockchain.rebuildIndex hashes i storage index).1.isEmpty = true ↔
      index.isEmpty = true ∧ ∀ hash ∈ hashes, storage.stored hash = none := by
  induction hashes generalizing i storage index with
  | nil => simp [CBlockchain.rebuildIndex]
  | cons hash rest ih =>
    rw [CBlockchain.rebuildIndex, CBlockStorage.readBlock_eq, List.forall_mem_cons]
    cases hstored : storage.stored hash with
    | none =>
      simp only [ih, CBlockStorage.stored_loadIndex, true_and]
    | some blk =>
      simp only
      split <;> simp [ih]

/-- `Init` takes the chain from a storage that holds one, and builds the genesis block
    over every other storage. -/
theorem init_route {params : ChainParams} {storage : CBlockStorage} {bc : CBlockchain}
    (hinit : CBlockchain.init params { storage := storage } = .ok (.ok (), bc)) :
    (HoldsChain storage ∧ bc.chain.byHeight = (storage.loadChainState .empty (-1) 0 []).byHeight) ∨
      (¬ HoldsChain storage ∧
        ∃ g, CBlockchain.minedGenesis params = some g ∧ bc.chain.byHeight = [g.getHash]) := by
  unfold CBlockchain.init CBlockchain.loadFromStorage at hinit
  simp only [show ({} : CCoinsView) = .empty from rfl] at hinit
  split at hinit
  next hok =>
    have hempty := rebuildIndex_isEmpty_iff (storage.loadChainState .empty (-1) 0 []).byHeight 0 storage ∅
    split at hinit
    next hindex =>
      simp only [Except.ok.injEq, Prod.mk.injEq, true_and] at hinit
      rw [← hinit]
      refine Or.inl ⟨⟨hok, ?_⟩, rfl⟩
      by_contra hnone
      push Not at hnone
      rw [hempty.mpr ⟨rfl, by simpa using hnone⟩] at hindex
      cases hindex
    next hindex =>
      obtain ⟨g, view, fees, hmined, -, hresult⟩ := applyGenesis_eq_ok hinit
      refine Or.inr ⟨?_, g, hmined, by rw [hresult]; rfl⟩
      rintro ⟨-, hash, hmem, hreads⟩
      rw [(hempty.mp (Bool.of_not_eq_false hindex)).2 hash hmem] at hreads
      cases hreads
  next hfailed =>
    obtain ⟨g, view, fees, hmined, -, hresult⟩ := applyGenesis_eq_ok hinit
    exact Or.inr ⟨fun hholds => hfailed hholds.1, g, hmined, by rw [hresult]; rfl⟩

/-- The chain starts with the genesis block that the parameters name. -/
structure EnforcesGenesis (params : ChainParams) (bc : CBlockchain) : Prop where
  byHeight : bc.chain.byHeight[0]? = some params.genesisHash
  stored : ∀ blk, (bc.getBlockByHeight 0).1 = some blk → blk.getHash = params.genesisHash

/-- A block that is read at height zero has the first hash of the list. -/
theorem enforcesGenesis_iff (params : ChainParams) (bc : CBlockchain) :
    EnforcesGenesis params bc ↔ bc.chain.byHeight[0]? = some params.genesisHash := by
  refine ⟨EnforcesGenesis.byHeight, ?_⟩
  intro hbyHeight
  refine ⟨hbyHeight, ?_⟩
  intro blk hblk
  rw [show (0 : Int) = ((0 : Nat) : Int) from rfl, CBlockchain.getBlockByHeight_fst] at hblk
  split at hblk
  · unfold CBlockchain.blockAt at hblk
    simp only [hbyHeight] at hblk
    exact CBlockStorage.stored_hash hblk
  · cases hblk

/-- After `Init` the chain starts with the configured genesis block exactly when the
    chain of the storage does, or, over a storage without a chain, when the genesis
    block that `ApplyGenesis` settles on has the configured hash. -/
theorem init_enforcesGenesis_iff {params : ChainParams} (hconfigured : params.genesisHashHex ≠ "")
    {storage : CBlockStorage} {bc : CBlockchain}
    (hinit : CBlockchain.init params { storage := storage } = .ok (.ok (), bc)) :
    EnforcesGenesis params bc ↔
      (HoldsChain storage →
        (storage.loadChainState .empty (-1) 0 []).byHeight[0]? = some params.genesisHash) ∧
      (¬ HoldsChain storage → GenesisFound params) := by
  rw [enforcesGenesis_iff]
  rcases init_route hinit with ⟨hholds, hbyHeight⟩ | ⟨hnone, g, hmined, hbyHeight⟩
  · rw [hbyHeight]
    exact ⟨fun hfirst => ⟨fun _ => hfirst, fun hnot => absurd hholds hnot⟩, fun hguard => hguard.1 hholds⟩
  · rw [hbyHeight, List.getElem?_cons_zero, Option.some.injEq, minedGenesis_hash_iff hconfigured hmined]
    exact ⟨fun hfound => ⟨fun hholds => absurd hholds hnone, fun _ => hfound⟩, fun hguard => hguard.2 hnone⟩

end Rule

section

attribute [local instance] toolCrypto zeroMemory

/-- What a call that returns true leaves, for evaluation. -/
def Outcome.accepted (result : Outcome (Except String Unit)) : Option CBlockchain :=
  result.toOption.bind fun answer => answer.1.toOption.map fun _ => answer.2

theorem Outcome.accepted_eq_some {result : Outcome (Except String Unit)} {bc : CBlockchain}
    (haccepted : Outcome.accepted result = some bc) : result = .ok (.ok (), bc) := by
  cases result with
  | error sum => cases haccepted
  | ok answer =>
    obtain ⟨answer, bc'⟩ := answer
    cases answer with
    | error message => cases haccepted
    | ok _ =>
      cases haccepted
      rfl

theorem init_enforcesGenesis_regtest : ∃ bc, regtestParams.genesisHashHex ≠ "" ∧
    CBlockchain.init regtestParams {} = .ok (.ok (), bc) ∧ EnforcesGenesis regtestParams bc := by
  have hevaluated : (Outcome.accepted (CBlockchain.init regtestParams {})).isSome = true ∧
      checkBlockHeader (getGenesisBlock regtestParams).header none regtestParams = .ok () := by
    rw [← tableCrypto_eq digests_right]
    decide +kernel
  obtain ⟨bc, haccepted⟩ := Option.isSome_iff_exists.mp hevaluated.1
  have hinit := Outcome.accepted_eq_some haccepted
  have hconfigured : regtestParams.genesisHashHex ≠ "" := by decide
  have hnone : ¬ HoldsChain {} := fun hholds => Bool.false_ne_true hholds.1
  refine ⟨bc, hconfigured, hinit, (init_enforcesGenesis_iff hconfigured hinit).mpr ?_⟩
  exact ⟨fun hholds => absurd hholds hnone, fun _ => Or.inl hevaluated.2⟩

/-- The data directory of a fresh node on the regression network, opened anew. -/
def regtestDirectory : CBlockStorage :=
  ((CBlockchain.fresh regtestParams).map fun bc => ({ disk := bc.storage.disk } : CBlockStorage)).getD {}

/-- A node of the main network comes up on the directory of the regression network, with
    that network's genesis block. -/
theorem enforcesGenesis_fails_otherNetwork : mainnetParams.genesisHashHex ≠ "" ∧
    ∃ bc, CBlockchain.init mainnetParams { storage := regtestDirectory } = .ok (.ok (), bc) ∧
      ¬ EnforcesGenesis mainnetParams bc := by
  have hevaluated : (Outcome.accepted (CBlockchain.init mainnetParams { storage := regtestDirectory })).map
      (fun bc => decide (bc.chain.byHeight[0]? = some mainnetParams.genesisHash)) = some false := by
    rw [← tableCrypto_eq digests_right]
    decide +kernel
  obtain ⟨bc, haccepted, hfirst⟩ := Option.map_eq_some_iff.mp hevaluated
  refine ⟨by decide, bc, Outcome.accepted_eq_some haccepted, ?_⟩
  rw [enforcesGenesis_iff]
  exact of_decide_eq_false hfirst

end

end cdx
