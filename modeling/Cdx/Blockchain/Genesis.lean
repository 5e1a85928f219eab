import Cdx.Consensus.Validation

namespace cdx

def genesisMessage : Bytes := ascii "CDX Genesis - Codex Coin, 21,000,000 CDX, SHA-256d PoW, UTXO, P2P"

theorem length_genesisMessage : genesisMessage.length + 1 < 2 ^ 64 := by decide

theorem length_opTrue : ([0x51] : Bytes).length < 2 ^ 64 := by decide

variable [Crypto]

def CDX_GENESIS_TIMESTAMP : UInt32 := 1717200000

/-- The script that pushes `true`. -/
def opTrue : Script := ⟨[0x51], length_opTrue⟩

/-- The coinbase of a genesis block: its script pushes the message, its output is free to spend. -/
def genesisCoinbase (rewardBase : Int64) (message : Bytes) (hmessage : message.length + 1 < 2 ^ 64) :
    CTransaction where
  vin := [{
    prevout := ⟨0, 0xffffffff⟩
    scriptSig := ⟨UInt8.ofNat message.length :: message, by simpa using hmessage⟩ }]
  vout := [{ value := rewardBase, scriptPubKey := opTrue }]

def createGenesisBlock (bits : UInt32) (rewardBase : Int64) (timestamp : UInt32) (message : Bytes)
    (hmessage : message.length + 1 < 2 ^ 64) (nonce : UInt32) : CBlock where
  header := {
    prevBlockHash := 0
    merkleRoot := computeMerkleRootOfTxs [genesisCoinbase rewardBase message hmessage]
    timestamp := timestamp
    bits := bits
    nonce := nonce }
  vtx := [genesisCoinbase rewardBase message hmessage]

def getGenesisBlock (params : ChainParams) : CBlock :=
  createGenesisBlock params.minDifficultyBits (Int64.ofInt INITIAL_BLOCK_REWARD) CDX_GENESIS_TIMESTAMP
    genesisMessage length_genesisMessage params.genesisNonce

/-- The nonce search of `ApplyGenesis`, with `remaining` nonces from `nonce` on. -/
def mineGenesis (hdr : CBlockHeader) : Nat → Nat → Option CBlockHeader
  | 0, _ => none
  | remaining + 1, nonce =>
    let hdr := { hdr with nonce := UInt32.ofNat nonce }
    if checkProofOfWork hdr.getHash hdr.bits then some hdr else mineGenesis hdr remaining (nonce + 1)

theorem mineGenesis_spec {hdr found : CBlockHeader} {remaining nonce : Nat}
    (hfound : mineGenesis hdr remaining nonce = some found) :
    (∃ n, found = { hdr with nonce := n }) ∧ checkProofOfWork found.getHash found.bits = true := by
  induction remaining generalizing hdr nonce with
  | zero => cases hfound
  | succ remaining ih =>
    unfold mineGenesis at hfound
    by_cases hpow : checkProofOfWork { hdr with nonce := UInt32.ofNat nonce }.getHash hdr.bits = true
    · rw [if_pos hpow] at hfound
      cases hfound
      exact ⟨⟨_, rfl⟩, hpow⟩
    · rw [if_neg hpow] at hfound
      obtain ⟨⟨n, hn⟩, hwork⟩ := ih hfound
      exact ⟨⟨n, hn⟩, hwork⟩

end cdx
