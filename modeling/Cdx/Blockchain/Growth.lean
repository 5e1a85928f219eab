import Cdx.Blockchain.HeaviestChain
import Cdx.Consensus.SignatureHash

namespace cdx

section Growth

variable [Crypto]

/-- The blocks of a miner of the regression network who finds one every second and has no transaction to put in. -/
def grownBlock (g : CBlock) : Nat → CBlock
  | 0 => g
  | n + 1 => regtestBlock (grownBlock g n).getHash [regtestCoinbase (n + 1)]
      (CDX_GENESIS_TIMESTAMP + UInt32.ofNat (n + 1)) REGTEST_TARGET_BITS 0

def grownChain (g : CBlock) (n : Nat) : List CBlock := (List.range n).map (grownBlock g)

theorem grownChain_succ (g : CBlock) (n : Nat) : grownChain g (n + 1) = grownChain g n ++ [grownBlock g n] := by
  rw [grownChain, List.range_succ, List.map_append, List.map_singleton, grownChain]

theorem length_grownChain (g : CBlock) (n : Nat) : (grownChain g n).length = n := by
  rw [grownChain, List.length_map, List.length_range]

/-- What the hash function has to do for so many blocks: their headers pass the check, and no two have one hash. -/
structure Grows (g : CBlock) (n : Nat) : Prop where
  bits : g.header.bits = REGTEST_TARGET_BITS
  timestamp : g.header.timestamp = CDX_GENESIS_TIMESTAMP
  few : n < 10 ^ 9
  work : ∀ i < n, checkProofOfWork (grownBlock g (i + 1)).getHash REGTEST_TARGET_BITS = true
  distinct : ∀ i j, i < j → j ≤ n → (grownBlock g i).getHash ≠ (grownBlock g j).getHash

theorem grownBlock_timestamp {g : CBlock} (hg : g.header.timestamp = CDX_GENESIS_TIMESTAMP) (n : Nat) :
    (grownBlock g n).header.timestamp = CDX_GENESIS_TIMESTAMP + UInt32.ofNat n := by
  cases n with
  | zero => exact hg
  | succ n => rfl

/-- Every block adds the coin of its coinbase. -/
theorem replay_grownChain {g : CBlock} {n : Nat} {view : CCoinsView}
    (hreplay : replay 0 .empty (grownChain g (n + 1)) = .ok view) :
    replay 0 .empty (grownChain g (n + 2)) = .ok (view.addCoin ⟨getTxID (regtestCoinbase (n + 1)), 0⟩
      (coinbaseCoin (regtestCoinbase (n + 1)) (n + 1 : Nat) (getBlockSubsidy (n + 1 : Nat)))) := by
  rw [grownChain_succ, replay_append, hreplay, bind_ok, length_grownChain, Nat.zero_add]
  exact replay_singleton_eq_ok_iff.mpr ⟨0, checkBlock_regtestBlock ..⟩

/-- The coin of the first coinbase. -/
def firstCoin : CUTXO := coinbaseCoin (regtestCoinbase 1) 1 (getBlockSubsidy 1)

omit [Crypto] in
theorem isSpendable_firstCoin {height : Int} (hheight : 121 ≤ height) : firstCoin.isSpendable height = true := by
  rw [CUTXO.isSpendable, Bool.not_eq_true', Bool.and_eq_false_iff, decide_eq_false_iff_not]
  refine Or.inr ?_
  change ¬ height - 1 < 120
  omega

/-- The first coin stays if no later coinbase has its id. -/
theorem getCoin_grownChain {g : CBlock} {n : Nat}
    (hids : ∀ k, 1 < k → k ≤ n + 1 → getTxID (regtestCoinbase k) ≠ getTxID (regtestCoinbase 1)) {view : CCoinsView}
    (hreplay : replay 0 .empty (grownChain g (n + 2)) = .ok view) :
    view.getCoin ⟨getTxID (regtestCoinbase 1), 0⟩ = some firstCoin := by
  induction n generalizing view with
  | zero =>
    obtain ⟨base, hbase, -⟩ := replay_append_eq_ok (grownChain_succ g 1 ▸ hreplay)
    rw [replay_grownChain hbase] at hreplay
    cases hreplay
    rw [CCoinsView.getCoin_addCoin, if_pos rfl]
    rfl
  | succ n ih =>
    obtain ⟨base, hbase, -⟩ := replay_append_eq_ok (grownChain_succ g (n + 2) ▸ hreplay)
    rw [replay_grownChain hbase] at hreplay
    cases hreplay
    rw [CCoinsView.getCoin_addCoin, if_neg, ih (fun k hk hkn => hids k hk (by omega)) hbase]
    intro hsame
    exact hids (n + 2) (by omega) (Nat.le_refl _) (congrArg COutPoint.hash hsame).symm

namespace Grows

variable {g : CBlock} {n : Nat}

theorem bits_eq (hgrows : Grows g n) (i : Nat) : (grownBlock g i).header.bits = REGTEST_TARGET_BITS := by
  cases i with
  | zero => exact hgrows.bits
  | succ i => rfl

/-- Every block is younger than its parent. -/
theorem timestamp_lt (hgrows : Grows g n) {i : Nat} (hi : i < n) :
    (grownBlock g i).header.timestamp < (grownBlock g (i + 1)).header.timestamp := by
  have hfew := hgrows.few
  have hgenesis : CDX_GENESIS_TIMESTAMP.toNat = 1717200000 := by decide
  rw [grownBlock_timestamp hgrows.timestamp, grownBlock_timestamp hgrows.timestamp, UInt32.lt_iff_toNat_lt,
    UInt32.toNat_add, UInt32.toNat_add, UInt32.toNat_ofNat', UInt32.toNat_ofNat', hgenesis]
  omega

theorem header (hgrows : Grows g n) {i : Nat} (hi : i < n) :
    checkBlockHeader (grownBlock g (i + 1)).header (some (grownBlock g i).header) regtestParams = .ok () :=
  checkBlockHeader_some_eq_ok_iff.mpr ⟨hgrows.work i hi, rfl, hgrows.timestamp_lt hi⟩

variable [Memory]

/-- A node that has this chain and knows no other block takes the next one. -/
theorem extendsAt (hgrows : Grows g n) {i : Nat} (hi : i < n) {bc : CBlockchain}
    (hactive : Active regtestParams bc (grownChain g (i + 1)))
    (hknown : ∀ hash, bc.haveBlock hash = true → ∃ k ≤ i, hash = (grownBlock g k).getHash) :
    ExtendsAt regtestParams bc (grownBlock g (i + 1)) (grownChain g (i + 1)) := by
  have htip : ∀ last : CBlock, (grownChain g (i + 1)).getLast? = some last → last = grownBlock g i := by
    intro last hlast
    rw [grownChain_succ, List.getLast?_concat] at hlast
    exact (Option.some.inj hlast).symm
  refine ⟨?_, hactive.readChain, ?_, ?_, ?_⟩
  · by_contra hhave
    obtain ⟨k, hk, hsame⟩ := hknown _ (Bool.eq_true_of_not_eq_false hhave)
    exact hgrows.distinct k (i + 1) (by omega) (by omega) hsame.symm
  · intro last hlast
    rw [htip last hlast]
    exact hgrows.header hi
  · -- The regression network never retargets.
    intro last hlast
    rw [htip last hlast, hgrows.bits_eq]
    exact (hgrows.bits_eq i).symm
  · rw [← grownChain_succ]
    exact ⟨_, replay_grownChain hactive.replayed⟩

end Grows

/-- A payment of the first coinbase's output, with a fee of a thousand base units. -/
def firstPayment : CTransaction where
  vin := [{ prevout := ⟨getTxID (regtestCoinbase 1), 0⟩, scriptSig := emptyScript }]
  vout := [{ value := 4999999000, scriptPubKey := opTrue }]

/-- The payment is valid from height 121 on. -/
theorem checkTxInputs_firstPayment {view : CCoinsView} {height : Int}
    (hcoin : view.getCoin ⟨getTxID (regtestCoinbase 1), 0⟩ = some firstCoin) (hheight : 121 ≤ height) :
    checkTxInputs firstPayment view height = .ok 1000 := by
  have hmature := isSpendable_firstCoin hheight
  have hinputs : sumInputs firstPayment view height 0 0 firstPayment.vin = .ok 5000000000 := by
    simp only [sumInputs, firstPayment, hcoin, hmature]
    rfl
  have houtputs : sumValues .outSum 0 firstPayment.vout = .ok 4999999000 := rfl
  have hkind : ¬ firstPayment.isCoinBase = true := by simp [CTransaction.isCoinBase, firstPayment]
  rw [checkTxInputs, if_neg hkind, hinputs, houtputs]
  rfl

end Growth

section Suffix

attribute [local instance] suffixCrypto

theorem checkProofOfWork_suffix (data : Bytes) : checkProofOfWork (sha256d data) REGTEST_TARGET_BITS = true := by
  have htarget : (targetFromBits REGTEST_TARGET_BITS).isZero = false ∧
      256 ^ 31 ≤ (targetFromBits REGTEST_TARGET_BITS).toNat := by decide +kernel
  rw [checkProofOfWork, htarget.1, if_neg Bool.false_ne_true, decide_eq_true_iff, UInt256.le_iff_toNat_le]
  exact (sha256d_suffix_lt data).le.trans htarget.2

/-- Headers with one hash are of one time. -/
theorem timestamp_eq_of_getHash {a b : CBlock} (hhash : a.getHash = b.getHash) : a.header.timestamp = b.header.timestamp := by
  have hsplit (hdr : CBlockHeader) : serializeBlockHeader hdr =
      (writeU32 hdr.version.toUInt32 ++ writeUint256 hdr.prevBlockHash ++ writeUint256 hdr.merkleRoot) ++
        (writeU32 hdr.timestamp ++ (writeU32 hdr.bits ++ writeU32 hdr.nonce)) := by
    simp only [serializeBlockHeader, List.append_assoc]
  have hid : sha256d (serializeBlockHeader a.header) = sha256d (serializeBlockHeader b.header) := hhash
  rw [hsplit, hsplit] at hid
  have hbytes := eq_of_sha256d_suffix hid rfl rfl (by simp [writeU32]) (by simp [writeU32, writeUint256])
    (by simp [writeU32, writeUint256])
  exact (reads_u32 _).injective (hbytes ▸ reads_u32 _)

theorem grows_suffix {g : CBlock} (hbits : g.header.bits = REGTEST_TARGET_BITS)
    (htimestamp : g.header.timestamp = CDX_GENESIS_TIMESTAMP) {n : Nat} (hn : n < 10 ^ 9) : Grows g n where
  bits := hbits
  timestamp := htimestamp
  few := hn
  work _ _ := checkProofOfWork_suffix _
  distinct i j hij hj hsame := by
    have htime := timestamp_eq_of_getHash hsame
    rw [grownBlock_timestamp htimestamp, grownBlock_timestamp htimestamp, UInt32.add_right_inj] at htime
    have hnat := congrArg UInt32.toNat htime
    rw [UInt32.toNat_ofNat', UInt32.toNat_ofNat'] at hnat
    omega

/-- The bytes that end nineteen bytes before the end of the transaction. -/
def CTransaction.Holds (tx : CTransaction) (field : Bytes) : Prop :=
  ∃ before after, 31 ≤ before.length ∧ after.length = 19 ∧ serializeTransaction tx = before ++ (field ++ after)

theorem CTransaction.Holds.eq_of_getTxID {a b : CTransaction} {field field' : Bytes} (ha : a.Holds field)
    (hb : b.Holds field') (hfield : field.length = 5) (hfield' : field'.length = 5) (hid : getTxID a = getTxID b) :
    field = field' := by
  obtain ⟨before, after, hbefore, hafter, ha⟩ := ha
  obtain ⟨before', after', hbefore', hafter', hb⟩ := hb
  rw [getTxID, getTxID, ha, hb] at hid
  exact eq_of_sha256d_suffix hid (by omega) (by omega) (by omega) hbefore hbefore'

theorem holds_regtestCoinbase (height : Nat) :
    (regtestCoinbase height).Holds [0x04, UInt8.ofNat height, UInt8.ofNat (height / 256), 0, 0] := by
  refine ⟨writeU32 (1 : Int32).toUInt32 ++ (writeVarInt 1 ++ (writeUint256 0 ++ (writeU32 0xffffffff ++ writeVarInt 5))),
    writeU32 0xffffffff ++ (writeVarInt 1 ++ (writeU64 (Int64.ofInt (getBlockSubsidy height)).toUInt64 ++
      (writeVarStr opTrue ++ writeU32 0))), by decide, rfl, ?_⟩
  simp only [serializeTransaction, regtestCoinbase, List.flatMap_singleton, serializeTxIn, serializeTxOut, writeVarStr,
    List.length_cons, List.length_nil, List.append_assoc]

/-- The first coinbases have different ids. -/
theorem height_eq_of_getTxID {i j : Nat} (hi : i < 256) (hj : j < 256)
    (hid : getTxID (regtestCoinbase i) = getTxID (regtestCoinbase j)) : i = j := by
  have hsame := (holds_regtestCoinbase i).eq_of_getTxID (holds_regtestCoinbase j) rfl rfl hid
  have hnat := congrArg UInt8.toNat (List.cons.inj (List.cons.inj hsame).2).1
  rw [UInt8.toNat_ofNat', UInt8.toNat_ofNat'] at hnat
  omega

theorem holds_genesisTx : genesisTx.Holds (ascii ", P2P") := by
  refine ⟨writeU32 (1 : Int32).toUInt32 ++ (writeVarInt 1 ++ (writeUint256 0 ++ (writeU32 0xffffffff ++
    (writeVarInt 66 ++ 65 :: genesisMessage.take 60)))), writeU32 0xffffffff ++ (writeVarInt 1 ++
      (writeU64 (Int64.ofInt INITIAL_BLOCK_REWARD).toUInt64 ++ (writeVarStr opTrue ++ writeU32 0))), by decide, rfl, ?_⟩
  decide +kernel

theorem holds_firstPayment : firstPayment.Holds [0, 0, 0, 0, 0] := by
  refine ⟨writeU32 (1 : Int32).toUInt32 ++ (writeVarInt 1 ++ writeUint256 (getTxID (regtestCoinbase 1))),
    writeU32 0xffffffff ++ (writeVarInt 1 ++ (writeU64 (4999999000 : Int64).toUInt64 ++ (writeVarStr opTrue ++ writeU32 0))),
    ?_, rfl, ?_⟩
  · have hone : (writeVarInt 1).length = 1 := rfl
    simp [writeU32, writeUint256, hone]
  · simp only [serializeTransaction, firstPayment, List.flatMap_singleton, serializeTxIn, serializeTxOut, List.append_assoc]
    rfl

/-- No two of these transactions have one id. -/
theorem collisionFree_suffix {txs : Set CTransaction}
    (htxs : ∀ tx ∈ txs, tx = genesisTx ∨ tx = firstPayment ∨ ∃ height < 256, tx = regtestCoinbase height) :
    Set.InjOn sha256d (serializeTransaction '' txs) := by
  have hcoinbase (height : Nat) : [0x04, UInt8.ofNat height, UInt8.ofNat (height / 256), 0, 0] ≠ ascii ", P2P" ∧
      [0x04, UInt8.ofNat height, UInt8.ofNat (height / 256), 0, 0] ≠ [0, 0, 0, 0, 0] := by
    constructor
    · exact fun hsame => absurd (congrArg List.head? hsame) (by decide : some (0x04 : UInt8) ≠ (ascii ", P2P").head?)
    · exact fun hsame => absurd (congrArg List.head? hsame) (by decide : some (0x04 : UInt8) ≠ some 0)
  have hother : ascii ", P2P" ≠ [0, 0, 0, 0, 0] := by decide
  rintro _ ⟨a, ha, rfl⟩ _ ⟨b, hb, rfl⟩ hid
  obtain rfl | rfl | ⟨i, hi, rfl⟩ := htxs a ha <;> obtain rfl | rfl | ⟨j, hj, rfl⟩ := htxs b hb
  · rfl
  · exact absurd (holds_genesisTx.eq_of_getTxID holds_firstPayment rfl rfl hid) hother
  · exact absurd (holds_genesisTx.eq_of_getTxID (holds_regtestCoinbase j) rfl rfl hid).symm (hcoinbase j).1
  · exact absurd (holds_firstPayment.eq_of_getTxID holds_genesisTx rfl rfl hid).symm hother
  · rfl
  · exact absurd (holds_firstPayment.eq_of_getTxID (holds_regtestCoinbase j) rfl rfl hid).symm (hcoinbase j).2
  · exact absurd ((holds_regtestCoinbase i).eq_of_getTxID holds_genesisTx rfl rfl hid) (hcoinbase i).1
  · exact absurd ((holds_regtestCoinbase i).eq_of_getTxID holds_firstPayment rfl rfl hid) (hcoinbase i).2
  · rw [height_eq_of_getTxID hi hj hid]

end Suffix

section

attribute [local instance] toolCrypto zeroMemory

/-- The first block extends the chain of a fresh node. -/
theorem firstBlock_extendsAt : ∃ start g, CBlockchain.fresh regtestParams = some start ∧
    CBlockchain.minedGenesis regtestParams = some g ∧ Active regtestParams start [g] ∧
    ExtendsAt regtestParams start firstBlock [g] := by
  have hevaluated : (regtestAfter [firstBlock]).map (fun bc => bc.chain.height) = some 1 := by
    rw [← tableCrypto_eq digests_right]
    decide +kernel
  obtain ⟨bc, hbc, hheight⟩ := Option.map_eq_some_iff.mp hevaluated
  obtain ⟨start, hfresh, hrun⟩ := run_of_regtestAfter hbc
  rw [transition.run_singleton] at hrun
  obtain ⟨g, view, fees, hmined, -, -, hactive⟩ := fresh_active hfresh
  refine ⟨start, g, hfresh, hmined, hactive, ?_⟩
  -- The node did not stay at genesis, and there is nothing below it to fork off.
  obtain htouched | ⟨base, hextends | ⟨blocks, forkHeight, hfork, -⟩⟩ := hactive.deliver_joins hrun
  · rw [htouched.chain_eq, hactive.height] at hheight
    cases hheight
  · obtain rfl : [g] = base := Option.some.inj (hactive.readChain.symm.trans hextends.active)
    exact hextends
  · exact absurd ⟨blocks, forkHeight, hfork⟩ (fresh_not_reorganises hfresh firstBlock)

end

end cdx
