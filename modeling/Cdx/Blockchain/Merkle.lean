import Cdx.Blockchain.Block
import Cdx.Transaction.RoundTrip
import Cdx.Lib.PairTree

namespace cdx

open pairTree

section Roots

variable [Crypto]

/-- The bytes that are hashed over a pair. -/
def pairBytes (pair : UInt256 × UInt256) : Bytes := pair.1.getBytesLE ++ pair.2.getBytesLE

omit [Crypto] in
theorem pairBytes_injective : Function.Injective pairBytes := by
  rintro ⟨a, b⟩ ⟨c, d⟩ hsame
  obtain ⟨hleft, hright⟩ := List.append_inj hsame (by simp)
  have hbytes := Function.LeftInverse.injective UInt256.setBytesLE_getBytesLE
  exact Prod.ext (hbytes hleft) (hbytes hright)

def merkleNode (pair : UInt256 × UInt256) : UInt256 := sha256d (pairBytes pair)

theorem merkleLevel_eq (level : List UInt256) : merkleLevel level = (paired level).map merkleNode := by
  induction level using merkleLevel.induct with
  | case1 => rfl
  | case2 a => rfl
  | case3 a b rest ih =>
    rw [merkleLevel, ih]
    rfl

theorem merkleLoop_eq (rounds : Nat) (level : List UInt256) : merkleLoop rounds level = root merkleNode 0 rounds level := by
  induction rounds generalizing level with
  | zero => rcases level with _ | ⟨a, _ | ⟨b, rest⟩⟩ <;> rfl
  | succ rounds ih =>
    rcases level with _ | ⟨a, _ | ⟨b, rest⟩⟩
    · rfl
    · rfl
    · rw [merkleLoop, ih, merkleLevel_eq, root]
      all_goals simp

/-- Everything that is hashed to compute the root over these transactions. -/
def merkleInputs (txs : List CTransaction) : List Bytes :=
  txs.map serializeTransaction ++ (inputs merkleNode txs.length (txs.map getTxID)).map pairBytes

theorem computeMerkleRootOfTxs_injective {txs txs' : List CTransaction} (hlength : txs.length = txs'.length)
    (hsized : ∀ tx ∈ txs ++ txs', tx.Sized)
    (hcollision : Set.InjOn sha256d { data | data ∈ merkleInputs txs ∨ data ∈ merkleInputs txs' })
    (hroot : computeMerkleRootOfTxs txs = computeMerkleRootOfTxs txs') : txs = txs' := by
  have hids : txs.map getTxID = txs'.map getTxID := by
    simp only [computeMerkleRootOfTxs, computeMerkleRoot, merkleLoop_eq, List.length_map, ← hlength] at hroot
    refine root_injective ?_ ?_ ?_ hroot
    · rw [List.length_map]
    · rw [List.length_map, List.length_map, hlength]
    · intro pair hpair pair' hpair' hsame
      apply pairBytes_injective
      refine hcollision (.inl (List.mem_append_right _ (List.mem_map_of_mem hpair))) (.inr (List.mem_append_right _ ?_)) hsame
      rw [← hlength]
      exact List.mem_map_of_mem hpair'
  refine map_injective (fun tx htx tx' htx' hsame => ?_) hids
  have hbytes : serializeTransaction tx = serializeTransaction tx' :=
    hcollision (.inl (List.mem_append_left _ (List.mem_map_of_mem htx)))
      (.inr (List.mem_append_left _ (List.mem_map_of_mem htx'))) hsame
  exact serializeTransaction_inj_of_sized (hsized tx (List.mem_append_left _ htx))
    (hsized tx' (List.mem_append_right _ htx')) hbytes

/-- The header commits to the transactions of its block, given their number. -/
theorem vtx_eq_of_checkMerkleRoot {blk blk' : CBlock} (hheader : blk.header = blk'.header)
    (hlength : blk.vtx.length = blk'.vtx.length) (hsized : ∀ tx ∈ blk.vtx ++ blk'.vtx, tx.Sized)
    (hcollision : Set.InjOn sha256d { data | data ∈ merkleInputs blk.vtx ∨ data ∈ merkleInputs blk'.vtx })
    (hroot : blk.checkMerkleRoot = true) (hroot' : blk'.checkMerkleRoot = true) : blk.vtx = blk'.vtx := by
  apply computeMerkleRootOfTxs_injective hlength hsized hcollision
  rw [eq_of_beq hroot, eq_of_beq hroot', hheader]

end Roots

section

attribute [local instance] toolCrypto

/-- Three transactions, so that the tree has an odd level. -/
def oddBlock : CBlock :=
  let vtx : List CTransaction := [0, 1, 2].map fun lockTime => { vin := [], vout := [], lockTime }
  { header := { prevBlockHash := 0, merkleRoot := computeMerkleRootOfTxs vtx, timestamp := 1, bits := 0x207fffff, nonce := 2 }
    vtx }

/-- The same block with its transactions put together from two parts. -/
def reassembledBlock : CBlock := { oddBlock with vtx := oddBlock.vtx.take 1 ++ oddBlock.vtx.drop 1 }

theorem vtx_eq_of_checkMerkleRoot_odd :
    Set.InjOn sha256d { data | data ∈ merkleInputs oddBlock.vtx ∨ data ∈ merkleInputs reassembledBlock.vtx } ∧
    oddBlock.checkMerkleRoot = true ∧ reassembledBlock.checkMerkleRoot = true ∧ oddBlock.vtx = reassembledBlock.vtx := by
  have hdigests : ((merkleInputs oddBlock.vtx).map sha256d).Nodup := by decide +kernel
  have hcollision : Set.InjOn sha256d
      { data | data ∈ merkleInputs oddBlock.vtx ∨ data ∈ merkleInputs reassembledBlock.vtx } :=
    fun data hdata data' hdata' hsame => List.inj_on_of_nodup_map hdigests (or_self_iff.mp hdata) (or_self_iff.mp hdata') hsame
  have hroot : oddBlock.checkMerkleRoot = true := beq_self_eq_true _
  have hroot' : reassembledBlock.checkMerkleRoot = true := beq_self_eq_true _
  refine ⟨hcollision, hroot, hroot', vtx_eq_of_checkMerkleRoot rfl rfl ?_ hcollision hroot hroot'⟩
  decide

end

end cdx
