import Cdx.Transaction.Serializer

namespace cdx

variable [Crypto]

/-- One level of the tree over the one below; the last hash of an odd level is
    paired with itself. -/
def merkleLevel : List UInt256 → List UInt256
  | [] => []
  | [a] => [sha256d (a.getBytesLE ++ a.getBytesLE)]
  | a :: b :: rest => sha256d (a.getBytesLE ++ b.getBytesLE) :: merkleLevel rest

/-- The loop of `ComputeMerkleRoot`. A level of two or more hashes shrinks, so as
    many rounds as there are hashes reach the root. -/
def merkleLoop : Nat → List UInt256 → UInt256
  | _, [] => 0
  | _, [root] => root
  | 0, first :: _ => first
  | rounds + 1, level => merkleLoop rounds (merkleLevel level)

def computeMerkleRoot (hashes : List UInt256) : UInt256 := merkleLoop hashes.length hashes

/-- The overload over transactions. -/
def computeMerkleRootOfTxs (txs : List CTransaction) : UInt256 := computeMerkleRoot (txs.map getTxID)

def CBlock.checkMerkleRoot (blk : CBlock) : Bool := computeMerkleRootOfTxs blk.vtx == blk.header.merkleRoot

theorem length_merkleLevel (level : List UInt256) : (merkleLevel level).length = (level.length + 1) / 2 := by
  induction level using merkleLevel.induct with
  | case1 => rfl
  | case2 a => simp [merkleLevel]
  | case3 a b rest ih =>
    simp only [merkleLevel, List.length_cons, ih]
    omega

/-- Rounds beyond the number of hashes change nothing: the loop of the source
    ends at one hash within them. -/
theorem merkleLoop_of_length_le {rounds more : Nat} {level : List UInt256} (hrounds : level.length ≤ rounds)
    (hmore : rounds ≤ more) : merkleLoop more level = merkleLoop rounds level := by
  induction rounds generalizing more level with
  | zero =>
    obtain rfl : level = [] := List.length_eq_zero_iff.mp (by omega)
    cases more <;> rfl
  | succ rounds ih =>
    obtain ⟨more, rfl⟩ : ∃ m, more = m + 1 := ⟨more - 1, by omega⟩
    match level with
    | [] => rfl
    | [root] => rfl
    | a :: b :: rest =>
      simp only [merkleLoop]
      apply ih
      · rw [length_merkleLevel]
        simp only [List.length_cons] at hrounds ⊢
        omega
      · omega

end cdx
