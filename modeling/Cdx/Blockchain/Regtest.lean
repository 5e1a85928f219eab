import Cdx.Blockchain.Runs
import Cdx.Consensus.Built
import Cdx.Crypto.Sha256

namespace cdx

/-- Zeroed memory, in which a read past the end of `byHeight` fails. -/
@[reducible]
def zeroMemory : Memory where
  uninit n := List.replicate n 0
  length_uninit _ := List.length_replicate
  readPastEnd _ _ := none

/-- The coinbase of the chain tests: the height in its script, the subsidy in its output. -/
def regtestCoinbase (height : Nat) : CTransaction where
  vin := [{
    prevout := ⟨0, 0xffffffff⟩
    scriptSig := ⟨[0x04, UInt8.ofNat height, UInt8.ofNat (height / 256), 0, 0], show 5 < 2 ^ 64 by decide⟩ }]
  vout := [{ value := Int64.ofInt (getBlockSubsidy height), scriptPubKey := opTrue }]

/-- The same coinbase with its output under another script. -/
def coinbasePaying (height : Nat) (script : Script) : CTransaction :=
  { regtestCoinbase height with
    vout := [{ value := Int64.ofInt (getBlockSubsidy height), scriptPubKey := script }] }

theorem coinbasePaying_eq (height : Nat) (script : Script) : coinbasePaying height script =
    builtCoinbase ⟨[0x04, UInt8.ofNat height, UInt8.ofNat (height / 256), 0, 0], show 5 < 2 ^ 64 by decide⟩
      (getBlockSubsidy height) script := rfl

theorem value_coinbasePaying (height : Nat) (script : Script) :
    outputValue (coinbasePaying height script).vout = getBlockSubsidy height := by
  rw [coinbasePaying_eq]
  exact value_builtCoinbase _ (getBlockSubsidy_bounds height).1 (getBlockSubsidy_le_maxMoney height) script

/-- `CheckTransaction` does not look at the scripts of outputs. -/
theorem checkTransaction_coinbasePaying (height : Nat) (script : Script) :
    checkTransaction (coinbasePaying height script) = .ok () := by
  rw [coinbasePaying_eq]
  apply checkTransaction_builtCoinbase _ _ (getBlockSubsidy_bounds height).1 (getBlockSubsidy_le_maxMoney height)
  · exact show 2 ≤ 5 by decide
  · exact show 5 ≤ 100 by decide

section Builder

variable [Crypto]

/-- `MakeRegtestBlock` of the chain tests, with the bits and the nonce it is mined with. -/
def regtestBlock (prev : UInt256) (vtx : List CTransaction) (timestamp bits nonce : UInt32) : CBlock where
  header := {
    prevBlockHash := prev
    merkleRoot := computeMerkleRootOfTxs vtx
    timestamp := timestamp
    bits := bits
    nonce := nonce }
  vtx := vtx

/-- A block that holds only a coinbase of its height passes `CheckBlock` over any view. -/
theorem checkBlock_coinbasePaying (prev : UInt256) (height : Nat) (script : Script) (timestamp bits nonce : UInt32)
    (view : CCoinsView) :
    checkBlock (regtestBlock prev [coinbasePaying height script] timestamp bits nonce) height view =
      .ok (view.addCoin ⟨getTxID (coinbasePaying height script), 0⟩
        (coinbaseCoin (coinbasePaying height script) height (getBlockSubsidy height)), 0) := by
  have hvalue := value_coinbasePaying height script
  have hpaid : connectCoinbase height (coinbasePaying height script) view 0 =
      .ok (view.addCoin ⟨getTxID (coinbasePaying height script), 0⟩
        (coinbaseCoin (coinbasePaying height script) height (getBlockSubsidy height))) := by
    rw [← hvalue]
    apply connectCoinbase_of_value (checkTransaction_coinbasePaying height script) (le_refl 0) (by decide)
    rw [hvalue, Int.add_zero]
  have hcoinbase : (coinbasePaying height script).isCoinBase = true := by
    rw [coinbasePaying_eq]
    exact isCoinBase_builtCoinbase ..
  have hothers : ∀ tx ∈ ([] : List CTransaction), tx.isCoinBase = false := by simp
  apply checkBlock_of_connected rfl hcoinbase hothers _ (beq_self_eq_true _) rfl hpaid
  exact show 1 ≤ MAX_TX_COUNT_PER_BLOCK by decide

theorem checkBlock_regtestBlock (prev : UInt256) (height : Nat) (timestamp bits nonce : UInt32) (view : CCoinsView) :
    checkBlock (regtestBlock prev [regtestCoinbase height] timestamp bits nonce) height view =
      .ok (view.addCoin ⟨getTxID (regtestCoinbase height), 0⟩
        (coinbaseCoin (regtestCoinbase height) height (getBlockSubsidy height)), 0) :=
  checkBlock_coinbasePaying prev height opTrue timestamp bits nonce view

/-- The first block after genesis. -/
def firstBlock : CBlock :=
  regtestBlock (getGenesisBlock regtestParams).getHash [regtestCoinbase 1] (CDX_GENESIS_TIMESTAMP + 1) 0x207fffff 0

/-- Another block on genesis, of the same work. -/
def rivalBlock : CBlock :=
  regtestBlock (getGenesisBlock regtestParams).getHash [regtestCoinbase 1] (CDX_GENESIS_TIMESTAMP + 2) 0x207fffff 1

/-- A block on the rival. -/
def rivalChild : CBlock :=
  regtestBlock rivalBlock.getHash [regtestCoinbase 2] (CDX_GENESIS_TIMESTAMP + 3) 0x207fffff 0

/-- A block on genesis whose bits claim 256 units of work instead of two. -/
def heavyBlock : CBlock :=
  regtestBlock (getGenesisBlock regtestParams).getHash [regtestCoinbase 1] (CDX_GENESIS_TIMESTAMP + 4) 0x2000ffff 85

/-- A block on genesis whose bits claim four units of work. -/
def middleBlock : CBlock :=
  regtestBlock (getGenesisBlock regtestParams).getHash [regtestCoinbase 1] (CDX_GENESIS_TIMESTAMP + 5) 0x203fffff 3

/-- A block on genesis that repeats the coinbase of genesis. -/
def echoBlock : CBlock :=
  regtestBlock (getGenesisBlock regtestParams).getHash [genesisTx] (CDX_GENESIS_TIMESTAMP + 6) 0x207fffff 1

variable [Memory]

/-- The regression network after a fresh start and some deliveries. -/
def regtestAfter (events : List CBlock) : Option CBlockchain :=
  match CBlockchain.fresh regtestParams with
  | none => none
  | some start => transition.run (CBlockchain.deliver regtestParams) start events

theorem run_of_regtestAfter {events : List CBlock} {bc : CBlockchain} (hafter : regtestAfter events = some bc) :
    ∃ start, CBlockchain.fresh regtestParams = some start ∧
      transition.run (CBlockchain.deliver regtestParams) start events = some bc := by
  unfold regtestAfter at hafter
  cases hfresh : CBlockchain.fresh regtestParams with
  | none =>
    rw [hfresh] at hafter
    cases hafter
  | some start =>
    rw [hfresh] at hafter
    exact ⟨start, rfl, hafter⟩

theorem reachable_of_regtestAfter {events : List CBlock} {bc : CBlockchain} (hafter : regtestAfter events = some bc) :
    Reachable regtestParams bc := by
  obtain ⟨start, hfresh, hrun⟩ := run_of_regtestAfter hafter
  exact ⟨start, events, hfresh, hrun⟩

end Builder

/-- Digests of the headers and transactions of the blocks below. -/
def digests : List (Bytes × Bytes) := [
  ([0x01, 0x00, 0x00, 0x00, 0x00, 0x00, 0x00, 0x00, 0x00, 0x00, 0x00, 0x00, 0x00, 0x00, 0x00, 0x00, 0x00, 0x00, 0x00, 0x00, 0x00, 0x00, 0x00, 0x00, 0x00, 0x00, 0x00, 0x00, 0x00, 0x00, 0x00, 0x00, 0x00, 0x00, 0x00, 0x00, 0xc3, 0xdb, 0x81, 0x91, 0x32, 0x2f, 0x82, 0x10, 0x42, 0xc6, 0x10, 0x29, 0x7d, 0xaa, 0x81, 0x6b, 0xec, 0x7c, 0x6a, 0xa4, 0x81, 0x59, 0x79, 0xa2, 0xd7, 0x21, 0x5e, 0x33, 0x58, 0x35, 0x7d, 0x25, 0x80, 0x64, 0x5a, 0x66, 0xff, 0xff, 0x7f, 0x20, 0x00, 0x00, 0x00, 0x00],
   [0x8b, 0x3a, 0x81, 0xb4, 0xf2, 0x2a, 0xec, 0x63, 0x01, 0x21, 0xd7, 0xde, 0xaf, 0x65, 0x12, 0x4f, 0x98, 0xf6, 0xff, 0x11, 0x45, 0x84, 0xc0, 0x55, 0x74, 0x13, 0x34, 0x4f, 0x07, 0x06, 0x76, 0x3d]),
  ([0x8b, 0x3a, 0x81, 0xb4, 0xf2, 0x2a, 0xec, 0x63, 0x01, 0x21, 0xd7, 0xde, 0xaf, 0x65, 0x12, 0x4f, 0x98, 0xf6, 0xff, 0x11, 0x45, 0x84, 0xc0, 0x55, 0x74, 0x13, 0x34, 0x4f, 0x07, 0x06, 0x76, 0x3d],
   [0xcd, 0xcd, 0x8b, 0x3c, 0xde, 0x1b, 0x06, 0xd9, 0xa0, 0x73, 0x3f, 0x6c, 0x52, 0xa7, 0x82, 0xd0, 0xbf, 0xd8, 0x99, 0xc6, 0x1c, 0x53, 0xc4, 0x19, 0x5a, 0x15, 0xc9, 0x1d, 0xf1, 0x9d, 0xd1, 0x6c]),
  ([0x01, 0x00, 0x00, 0x00, 0xcd, 0xcd, 0x8b, 0x3c, 0xde, 0x1b, 0x06, 0xd9, 0xa0, 0x73, 0x3f, 0x6c, 0x52, 0xa7, 0x82, 0xd0, 0xbf, 0xd8, 0x99, 0xc6, 0x1c, 0x53, 0xc4, 0x19, 0x5a, 0x15, 0xc9, 0x1d, 0xf1, 0x9d, 0xd1, 0x6c, 0x2b, 0x0d, 0x68, 0xda, 0x38, 0x4d, 0x2a, 0xc1, 0x01, 0x67, 0xe1, 0x28, 0xc8, 0x8e, 0xcf, 0x65, 0x6c, 0xae, 0x61, 0xb0, 0x9a, 0xba, 0x62, 0xfc, 0x75, 0xc9, 0x54, 0xb2, 0x2d, 0x30, 0x5c, 0xd0, 0x81, 0x64, 0x5a, 0x66, 0xff, 0xff, 0x7f, 0x20, 0x00, 0x00, 0x00, 0x00],
   [0x4d, 0x90, 0x66, 0xcc, 0x84, 0xb2, 0x3d, 0x11, 0xb0, 0xa9, 0x42, 0x6c, 0xe7, 0xc2, 0x87, 0x70, 0x42, 0xaa, 0x83, 0x9b, 0x13, 0x57, 0x40, 0x41, 0x0d, 0x2a, 0x6f, 0xba, 0x10, 0xb8, 0x72, 0xa7]),
  ([0x4d, 0x90, 0x66, 0xcc, 0x84, 0xb2, 0x3d, 0x11, 0xb0, 0xa9, 0x42, 0x6c, 0xe7, 0xc2, 0x87, 0x70, 0x42, 0xaa, 0x83, 0x9b, 0x13, 0x57, 0x40, 0x41, 0x0d, 0x2a, 0x6f, 0xba, 0x10, 0xb8, 0x72, 0xa7],
   [0x74, 0x96, 0x6d, 0x22, 0xf7, 0x2e, 0x9b, 0x48, 0x81, 0x7f, 0xbb, 0x98, 0xd8, 0x60, 0x62, 0xee, 0x98, 0x85, 0x67, 0x6e, 0x1e, 0x30, 0xaf, 0xb5, 0x74, 0x3a, 0x42, 0x36, 0xf8, 0xbd, 0xb3, 0x2d]),
  ([0x01, 0x00, 0x00, 0x00, 0xcd, 0xcd, 0x8b, 0x3c, 0xde, 0x1b, 0x06, 0xd9, 0xa0, 0x73, 0x3f, 0x6c, 0x52, 0xa7, 0x82, 0xd0, 0xbf, 0xd8, 0x99, 0xc6, 0x1c, 0x53, 0xc4, 0x19, 0x5a, 0x15, 0xc9, 0x1d, 0xf1, 0x9d, 0xd1, 0x6c, 0x2b, 0x0d, 0x68, 0xda, 0x38, 0x4d, 0x2a, 0xc1, 0x01, 0x67, 0xe1, 0x28, 0xc8, 0x8e, 0xcf, 0x65, 0x6c, 0xae, 0x61, 0xb0, 0x9a, 0xba, 0x62, 0xfc, 0x75, 0xc9, 0x54, 0xb2, 0x2d, 0x30, 0x5c, 0xd0, 0x82, 0x64, 0x5a, 0x66, 0xff, 0xff, 0x7f, 0x20, 0x01, 0x00, 0x00, 0x00],
   [0xd4, 0x20, 0x6c, 0xe8, 0xe0, 0xbd, 0xfe, 0x5e, 0x9d, 0xc9, 0xde, 0xdb, 0x47, 0x7f, 0xf4, 0x3e, 0xdc, 0x67, 0x32, 0x64, 0x6e, 0x72, 0x50, 0x5a, 0x0a, 0xb3, 0xa7, 0x7b, 0x67, 0x59, 0x17, 0xdb]),
  ([0xd4, 0x20, 0x6c, 0xe8, 0xe0, 0xbd, 0xfe, 0x5e, 0x9d, 0xc9, 0xde, 0xdb, 0x47, 0x7f, 0xf4, 0x3e, 0xdc, 0x67, 0x32, 0x64, 0x6e, 0x72, 0x50, 0x5a, 0x0a, 0xb3, 0xa7, 0x7b, 0x67, 0x59, 0x17, 0xdb],
   [0x2a, 0x70, 0x83, 0x6c, 0xbd, 0x3c, 0x11, 0x89, 0xed, 0xbb, 0x3c, 0xc1, 0x72, 0x8d, 0xeb, 0x9e, 0x62, 0xae, 0xed, 0x02, 0x93, 0x8a, 0xee, 0xa0, 0x78, 0x9d, 0x0d, 0x54, 0x0a, 0x3a, 0xfd, 0x36]),
  ([0x01, 0x00, 0x00, 0x00, 0x2a, 0x70, 0x83, 0x6c, 0xbd, 0x3c, 0x11, 0x89, 0xed, 0xbb, 0x3c, 0xc1, 0x72, 0x8d, 0xeb, 0x9e, 0x62, 0xae, 0xed, 0x02, 0x93, 0x8a, 0xee, 0xa0, 0x78, 0x9d, 0x0d, 0x54, 0x0a, 0x3a, 0xfd, 0x36, 0xca, 0xa8, 0x4d, 0x04, 0x53, 0x7a, 0x8a, 0x3e, 0x2c, 0xf6, 0xb5, 0x5f, 0xed, 0x9f, 0xed, 0x3b, 0x80, 0x27, 0x05, 0x42, 0x71, 0xd0, 0x26, 0xc9, 0x64, 0xa5, 0x42, 0x22, 0xe1, 0x92, 0xc3, 0x27, 0x83, 0x64, 0x5a, 0x66, 0xff, 0xff, 0x7f, 0x20, 0x00, 0x00, 0x00, 0x00],
   [0x8e, 0xa5, 0x67, 0x85, 0xc7, 0x2c, 0x1c, 0xe5, 0xa8, 0x96, 0x43, 0x53, 0x0e, 0xc1, 0x91, 0x7e, 0xd2, 0x74, 0x5a, 0xa4, 0x79, 0x09, 0xa6, 0x9c, 0x2e, 0x99, 0x16, 0xd8, 0xdb, 0x8a, 0x78, 0x9a]),
  ([0x8e, 0xa5, 0x67, 0x85, 0xc7, 0x2c, 0x1c, 0xe5, 0xa8, 0x96, 0x43, 0x53, 0x0e, 0xc1, 0x91, 0x7e, 0xd2, 0x74, 0x5a, 0xa4, 0x79, 0x09, 0xa6, 0x9c, 0x2e, 0x99, 0x16, 0xd8, 0xdb, 0x8a, 0x78, 0x9a],
   [0x66, 0x1c, 0x61, 0xe8, 0x30, 0x1a, 0xac, 0xa9, 0x09, 0xfa, 0x1e, 0x60, 0xc4, 0x25, 0xc5, 0x48, 0x3d, 0x24, 0x4e, 0xb2, 0xec, 0xf9, 0x65, 0xa5, 0x6b, 0x6a, 0x21, 0x6c, 0x45, 0x93, 0x57, 0x49]),
  ([0x01, 0x00, 0x00, 0x00, 0xcd, 0xcd, 0x8b, 0x3c, 0xde, 0x1b, 0x06, 0xd9, 0xa0, 0x73, 0x3f, 0x6c, 0x52, 0xa7, 0x82, 0xd0, 0xbf, 0xd8, 0x99, 0xc6, 0x1c, 0x53, 0xc4, 0x19, 0x5a, 0x15, 0xc9, 0x1d, 0xf1, 0x9d, 0xd1, 0x6c, 0x2b, 0x0d, 0x68, 0xda, 0x38, 0x4d, 0x2a, 0xc1, 0x01, 0x67, 0xe1, 0x28, 0xc8, 0x8e, 0xcf, 0x65, 0x6c, 0xae, 0x61, 0xb0, 0x9a, 0xba, 0x62, 0xfc, 0x75, 0xc9, 0x54, 0xb2, 0x2d, 0x30, 0x5c, 0xd0, 0x84, 0x64, 0x5a, 0x66, 0xff, 0xff, 0x00, 0x20, 0x55, 0x00, 0x00, 0x00],
   [0x6b, 0x42, 0x21, 0x8a, 0x33, 0x35, 0xf3, 0x55, 0xa6, 0x52, 0xe8, 0xab, 0x46, 0x22, 0x53, 0x98, 0x3d, 0xb5, 0xf2, 0xee, 0xff, 0x9f, 0xcf, 0xbd, 0x0c, 0x87, 0x0e, 0x99, 0x53, 0x4e, 0x47, 0xce]),
  ([0x6b, 0x42, 0x21, 0x8a, 0x33, 0x35, 0xf3, 0x55, 0xa6, 0x52, 0xe8, 0xab, 0x46, 0x22, 0x53, 0x98, 0x3d, 0xb5, 0xf2, 0xee, 0xff, 0x9f, 0xcf, 0xbd, 0x0c, 0x87, 0x0e, 0x99, 0x53, 0x4e, 0x47, 0xce],
   [0x71, 0xd5, 0x48, 0x1f, 0xaf, 0xdf, 0x36, 0x60, 0x3c, 0x83, 0x5d, 0x1b, 0xb4, 0x27, 0x6d, 0x13, 0x09, 0x46, 0x19, 0x77, 0xc0, 0xfc, 0xb2, 0xec, 0xea, 0xac, 0xfc, 0xb0, 0x2d, 0x59, 0x5e, 0x00]),
  ([0x01, 0x00, 0x00, 0x00, 0xcd, 0xcd, 0x8b, 0x3c, 0xde, 0x1b, 0x06, 0xd9, 0xa0, 0x73, 0x3f, 0x6c, 0x52, 0xa7, 0x82, 0xd0, 0xbf, 0xd8, 0x99, 0xc6, 0x1c, 0x53, 0xc4, 0x19, 0x5a, 0x15, 0xc9, 0x1d, 0xf1, 0x9d, 0xd1, 0x6c, 0x2b, 0x0d, 0x68, 0xda, 0x38, 0x4d, 0x2a, 0xc1, 0x01, 0x67, 0xe1, 0x28, 0xc8, 0x8e, 0xcf, 0x65, 0x6c, 0xae, 0x61, 0xb0, 0x9a, 0xba, 0x62, 0xfc, 0x75, 0xc9, 0x54, 0xb2, 0x2d, 0x30, 0x5c, 0xd0, 0x85, 0x64, 0x5a, 0x66, 0xff, 0xff, 0x3f, 0x20, 0x03, 0x00, 0x00, 0x00],
   [0x6b, 0xb3, 0xa5, 0x4d, 0x65, 0xc5, 0x66, 0xf0, 0x76, 0x5c, 0x70, 0x9d, 0x50, 0x3e, 0x37, 0x98, 0xa1, 0x86, 0xeb, 0x25, 0xbc, 0xf3, 0xc9, 0x52, 0x42, 0xeb, 0x28, 0x77, 0xf9, 0xf0, 0x39, 0x59]),
  ([0x6b, 0xb3, 0xa5, 0x4d, 0x65, 0xc5, 0x66, 0xf0, 0x76, 0x5c, 0x70, 0x9d, 0x50, 0x3e, 0x37, 0x98, 0xa1, 0x86, 0xeb, 0x25, 0xbc, 0xf3, 0xc9, 0x52, 0x42, 0xeb, 0x28, 0x77, 0xf9, 0xf0, 0x39, 0x59],
   [0xe9, 0xf5, 0x89, 0x7d, 0x40, 0x97, 0x3a, 0x7e, 0xff, 0x00, 0xbb, 0x46, 0xa9, 0x3a, 0x70, 0x8c, 0x31, 0xab, 0xa7, 0xd1, 0x1a, 0xac, 0x61, 0x2c, 0xc2, 0x6a, 0xb0, 0x83, 0xf4, 0x2a, 0x39, 0x18]),
  ([0x01, 0x00, 0x00, 0x00, 0xcd, 0xcd, 0x8b, 0x3c, 0xde, 0x1b, 0x06, 0xd9, 0xa0, 0x73, 0x3f, 0x6c, 0x52, 0xa7, 0x82, 0xd0, 0xbf, 0xd8, 0x99, 0xc6, 0x1c, 0x53, 0xc4, 0x19, 0x5a, 0x15, 0xc9, 0x1d, 0xf1, 0x9d, 0xd1, 0x6c, 0xc3, 0xdb, 0x81, 0x91, 0x32, 0x2f, 0x82, 0x10, 0x42, 0xc6, 0x10, 0x29, 0x7d, 0xaa, 0x81, 0x6b, 0xec, 0x7c, 0x6a, 0xa4, 0x81, 0x59, 0x79, 0xa2, 0xd7, 0x21, 0x5e, 0x33, 0x58, 0x35, 0x7d, 0x25, 0x86, 0x64, 0x5a, 0x66, 0xff, 0xff, 0x7f, 0x20, 0x01, 0x00, 0x00, 0x00],
   [0xe2, 0x7e, 0x20, 0x14, 0x0c, 0x80, 0xaa, 0x59, 0x09, 0x01, 0xf5, 0xa5, 0x85, 0x15, 0xf6, 0xab, 0xcd, 0x1d, 0xa8, 0xed, 0xb8, 0x6f, 0x5e, 0x6d, 0x19, 0xfe, 0x60, 0x28, 0xd8, 0x39, 0xb9, 0xaf]),
  ([0xe2, 0x7e, 0x20, 0x14, 0x0c, 0x80, 0xaa, 0x59, 0x09, 0x01, 0xf5, 0xa5, 0x85, 0x15, 0xf6, 0xab, 0xcd, 0x1d, 0xa8, 0xed, 0xb8, 0x6f, 0x5e, 0x6d, 0x19, 0xfe, 0x60, 0x28, 0xd8, 0x39, 0xb9, 0xaf],
   [0x2c, 0x8e, 0x63, 0x28, 0xd3, 0x08, 0x35, 0x89, 0x77, 0x8b, 0x89, 0xfa, 0x89, 0xd0, 0x54, 0xf3, 0xe6, 0x63, 0x9a, 0x0a, 0xae, 0x9f, 0x18, 0xfa, 0xc3, 0xb0, 0xb1, 0xd9, 0x71, 0x50, 0xd1, 0x12]),
  ([0x01, 0x00, 0x00, 0x00, 0x01, 0x00, 0x00, 0x00, 0x00, 0x00, 0x00, 0x00, 0x00, 0x00, 0x00, 0x00, 0x00, 0x00, 0x00, 0x00, 0x00, 0x00, 0x00, 0x00, 0x00, 0x00, 0x00, 0x00, 0x00, 0x00, 0x00, 0x00, 0x00, 0x00, 0x00, 0x00, 0x00, 0xff, 0xff, 0xff, 0xff, 0x42, 0x41, 0x43, 0x44, 0x58, 0x20, 0x47, 0x65, 0x6e, 0x65, 0x73, 0x69, 0x73, 0x20, 0x2d, 0x20, 0x43, 0x6f, 0x64, 0x65, 0x78, 0x20, 0x43, 0x6f, 0x69, 0x6e, 0x2c, 0x20, 0x32, 0x31, 0x2c, 0x30, 0x30, 0x30, 0x2c, 0x30, 0x30, 0x30, 0x20, 0x43, 0x44, 0x58, 0x2c, 0x20, 0x53, 0x48, 0x41, 0x2d, 0x32, 0x35, 0x36, 0x64, 0x20, 0x50, 0x6f, 0x57, 0x2c, 0x20, 0x55, 0x54, 0x58, 0x4f, 0x2c, 0x20, 0x50, 0x32, 0x50, 0xff, 0xff, 0xff, 0xff, 0x01, 0x00, 0xf2, 0x05, 0x2a, 0x01, 0x00, 0x00, 0x00, 0x01, 0x51, 0x00, 0x00, 0x00, 0x00],
   [0xef, 0x50, 0x83, 0x0a, 0xae, 0xf1, 0x9b, 0x63, 0x4c, 0xce, 0xbc, 0xd1, 0xd1, 0x2c, 0xcb, 0xee, 0xff, 0xf5, 0x77, 0xb7, 0x30, 0x6d, 0xca, 0x04, 0xf9, 0xf3, 0xad, 0xe9, 0xb0, 0xb3, 0x95, 0xea]),
  ([0xef, 0x50, 0x83, 0x0a, 0xae, 0xf1, 0x9b, 0x63, 0x4c, 0xce, 0xbc, 0xd1, 0xd1, 0x2c, 0xcb, 0xee, 0xff, 0xf5, 0x77, 0xb7, 0x30, 0x6d, 0xca, 0x04, 0xf9, 0xf3, 0xad, 0xe9, 0xb0, 0xb3, 0x95, 0xea],
   [0xc3, 0xdb, 0x81, 0x91, 0x32, 0x2f, 0x82, 0x10, 0x42, 0xc6, 0x10, 0x29, 0x7d, 0xaa, 0x81, 0x6b, 0xec, 0x7c, 0x6a, 0xa4, 0x81, 0x59, 0x79, 0xa2, 0xd7, 0x21, 0x5e, 0x33, 0x58, 0x35, 0x7d, 0x25]),
  ([0x01, 0x00, 0x00, 0x00, 0x01, 0x00, 0x00, 0x00, 0x00, 0x00, 0x00, 0x00, 0x00, 0x00, 0x00, 0x00, 0x00, 0x00, 0x00, 0x00, 0x00, 0x00, 0x00, 0x00, 0x00, 0x00, 0x00, 0x00, 0x00, 0x00, 0x00, 0x00, 0x00, 0x00, 0x00, 0x00, 0x00, 0xff, 0xff, 0xff, 0xff, 0x05, 0x04, 0x01, 0x00, 0x00, 0x00, 0xff, 0xff, 0xff, 0xff, 0x01, 0x00, 0xf2, 0x05, 0x2a, 0x01, 0x00, 0x00, 0x00, 0x01, 0x51, 0x00, 0x00, 0x00, 0x00],
   [0x09, 0x8c, 0xb2, 0x61, 0x6b, 0xa9, 0x06, 0xa5, 0xda, 0x89, 0x89, 0x93, 0xc9, 0x8f, 0xad, 0xb7, 0x7d, 0x32, 0x39, 0xa5, 0xb9, 0x04, 0x91, 0xfe, 0x94, 0x34, 0xac, 0x49, 0xd5, 0x0e, 0xa3, 0x26]),
  ([0x09, 0x8c, 0xb2, 0x61, 0x6b, 0xa9, 0x06, 0xa5, 0xda, 0x89, 0x89, 0x93, 0xc9, 0x8f, 0xad, 0xb7, 0x7d, 0x32, 0x39, 0xa5, 0xb9, 0x04, 0x91, 0xfe, 0x94, 0x34, 0xac, 0x49, 0xd5, 0x0e, 0xa3, 0x26],
   [0x2b, 0x0d, 0x68, 0xda, 0x38, 0x4d, 0x2a, 0xc1, 0x01, 0x67, 0xe1, 0x28, 0xc8, 0x8e, 0xcf, 0x65, 0x6c, 0xae, 0x61, 0xb0, 0x9a, 0xba, 0x62, 0xfc, 0x75, 0xc9, 0x54, 0xb2, 0x2d, 0x30, 0x5c, 0xd0]),
  ([0x01, 0x00, 0x00, 0x00, 0x01, 0x00, 0x00, 0x00, 0x00, 0x00, 0x00, 0x00, 0x00, 0x00, 0x00, 0x00, 0x00, 0x00, 0x00, 0x00, 0x00, 0x00, 0x00, 0x00, 0x00, 0x00, 0x00, 0x00, 0x00, 0x00, 0x00, 0x00, 0x00, 0x00, 0x00, 0x00, 0x00, 0xff, 0xff, 0xff, 0xff, 0x05, 0x04, 0x02, 0x00, 0x00, 0x00, 0xff, 0xff, 0xff, 0xff, 0x01, 0x00, 0xf2, 0x05, 0x2a, 0x01, 0x00, 0x00, 0x00, 0x01, 0x51, 0x00, 0x00, 0x00, 0x00],
   [0x02, 0x6f, 0x91, 0x78, 0xde, 0xea, 0xaf, 0x3e, 0x09, 0xbe, 0xe7, 0x72, 0x47, 0x60, 0xeb, 0x97, 0x99, 0x7f, 0x5c, 0x8d, 0xdf, 0x58, 0x5d, 0x65, 0xde, 0xb5, 0xb9, 0x1e, 0x15, 0xb9, 0x0b, 0xd7]),
  ([0x02, 0x6f, 0x91, 0x78, 0xde, 0xea, 0xaf, 0x3e, 0x09, 0xbe, 0xe7, 0x72, 0x47, 0x60, 0xeb, 0x97, 0x99, 0x7f, 0x5c, 0x8d, 0xdf, 0x58, 0x5d, 0x65, 0xde, 0xb5, 0xb9, 0x1e, 0x15, 0xb9, 0x0b, 0xd7],
   [0xca, 0xa8, 0x4d, 0x04, 0x53, 0x7a, 0x8a, 0x3e, 0x2c, 0xf6, 0xb5, 0x5f, 0xed, 0x9f, 0xed, 0x3b, 0x80, 0x27, 0x05, 0x42, 0x71, 0xd0, 0x26, 0xc9, 0x64, 0xa5, 0x42, 0x22, 0xe1, 0x92, 0xc3, 0x27])]

/-- The table agrees with SHA-256. -/
theorem digests_right : ∀ entry ∈ digests, sha256Full entry.1 = entry.2 := by decide +kernel

section Runs

attribute [local instance] toolCrypto zeroMemory

/-- A node that has seen the first block. -/
theorem regtestAfter_extended : ∃ start bc, CBlockchain.fresh regtestParams = some start ∧
    transition.run (CBlockchain.deliver regtestParams) start [firstBlock] = some bc := by
  have hevaluated : (regtestAfter [firstBlock]).isSome = true := by
    rw [← tableCrypto_eq digests_right]
    decide +kernel
  obtain ⟨bc, hbc⟩ := Option.isSome_iff_exists.mp hevaluated
  obtain ⟨start, hfresh, hrun⟩ := run_of_regtestAfter hbc
  exact ⟨start, bc, hfresh, hrun⟩

/-- A node that has seen the first block and then moved to the heavy one. -/
theorem regtestAfter_reorganised : ∃ bc, regtestAfter [firstBlock, heavyBlock] = some bc ∧
    bc.chain.tipHash = heavyBlock.getHash ∧ bc.chain.height = 1 := by
  have hevaluated : (regtestAfter [firstBlock, heavyBlock]).map (fun bc => (bc.chain.tipHash, bc.chain.height)) =
      some (heavyBlock.getHash, 1) := by
    rw [← tableCrypto_eq digests_right]
    decide +kernel
  obtain ⟨bc, hbc, heq⟩ := Option.map_eq_some_iff.mp hevaluated
  exact ⟨bc, hbc, congrArg Prod.fst heq, congrArg Prod.snd heq⟩

end Runs

end cdx
