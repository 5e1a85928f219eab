import Cdx.Blockchain.Genesis
import Cdx.Crypto.Sha256
import Cdx.Lib.Stream

namespace cdx

open codec stream Sha256

/-! The stand-alone genesis miner: its own serializer for the genesis header, and a double
SHA-256 that keeps the state after the first 64 bytes of the header. -/

/-- A word, least significant byte first, as the tool's serializer pushes it. -/
def putU32 (v : UInt32) : Bytes := [v.toUInt8, (v >>> 8).toUInt8, (v >>> 16).toUInt8, (v >>> 24).toUInt8]

def putU64 (v : UInt64) : Bytes := (List.range 8).map fun i => (v >>> UInt64.ofNat (8 * i)).toUInt8

def sha256dFull (data : Bytes) : Bytes := sha256Full (sha256Full data)

structure GenesisParams where
  ts : UInt32
  bits : UInt32
  reward : Int64
  message : Bytes

/-- The coinbase of the genesis block as the tool writes it. -/
def buildGenesisTx (g : GenesisParams) : Bytes :=
  let scriptSig := UInt8.ofNat g.message.length :: g.message
  putU32 1 ++ ([1] ++ (List.replicate 32 0 ++ (putU32 0xffffffff ++ ([UInt8.ofNat scriptSig.length] ++ (scriptSig ++
    (putU32 0xffffffff ++ ([1] ++ (putU64 g.reward.toUInt64 ++ ([1] ++ ([0x51] ++ putU32 0))))))))))

def buildGenesisHeader (g : GenesisParams) : Bytes :=
  let merkle := sha256dFull (buildGenesisTx g)
  let hdr := overwrite (List.replicate 80 0) 0 [1, 0, 0, 0]
  let hdr := overwrite hdr (4 + 32) merkle
  let hdr := overwrite hdr 68 (putU32 g.ts)
  overwrite hdr 72 (putU32 g.bits)

structure MiningState where
  hState : State
  block2 : Bytes
  hResult : State
  outPad : Bytes

/-- The bit length of a message, most significant byte first at the end of a block. -/
def putBitLength (block : Bytes) (bitlen : Nat) : Bytes :=
  (List.range 8).foldl (fun block i => overwrite block (63 - i) [UInt8.ofNat (bitlen >>> (8 * i))]) block

def prepare (hdr : Bytes) : MiningState :=
  let block2 := overwrite (List.replicate 64 0) 0 ((hdr.drop 64).take 16)
  let outPad := overwrite (List.replicate 64 0) 32 [0x80]
  { hState := compress iv hdr
    block2 := putBitLength (overwrite block2 16 [0x80]) (80 * 8)
    hResult := iv
    outPad := putBitLength outPad 256 }

/-- The hash for a nonce, and the state with its two blocks overwritten. -/
def mineHash (s : MiningState) (nonce : UInt32) : Bytes × MiningState :=
  let block2 := overwrite s.block2 12 (putU32 nonce)
  let h := compress s.hState block2
  let outPad := overwrite s.outPad 0 (digest h)
  (digest (compress s.hResult outPad), { s with block2 := block2, outPad := outPad })

section Serializer

theorem putU32_eq (v : UInt32) : putU32 v = writeU32 v := by
  have hlow : v.toUInt8 = UInt8.ofNat v.toNat := by
    apply UInt8.toNat_inj.mp
    rw [UInt32.toNat_toUInt8, UInt8.toNat_ofNat']
  rw [putU32, hlow, toUInt8_shiftRight32 v (by decide), toUInt8_shiftRight32 v (by decide),
    toUInt8_shiftRight32 v (by decide)]
  simp only [writeU32, leEncode, Nat.div_div_eq_div_mul]
  rfl

theorem putU64_eq (v : UInt64) : putU64 v = writeU64 v := shiftedBytes_eq v

theorem message_fits {message : Bytes} (hmessage : message.length ≤ 99) : message.length + 1 < 2 ^ 64 := by omega

/-- The tool writes the coinbase that the node's serializer writes. -/
theorem buildGenesisTx_eq (g : GenesisParams) (hmessage : g.message.length ≤ 99) :
    buildGenesisTx g = serializeTransaction (genesisCoinbase g.reward g.message (message_fits hmessage)) := by
  have hscript : g.message.length + 1 < 0xfd := by omega
  have hsize : writeVarInt (g.message.length + 1) = [UInt8.ofNat (g.message.length + 1)] := by
    rw [writeVarInt, if_pos hscript]
  have hzero : (0 : UInt256).getBytesLE = List.replicate 32 0 := by decide
  simp only [buildGenesisTx, serializeTransaction, genesisCoinbase, serializeTxIn, serializeTxOut, writeVarStr,
    List.flatMap_cons, List.flatMap_nil, List.append_nil, List.length_cons, List.length_nil, putU32_eq, putU64_eq, hsize,
    writeUint256, hzero, List.append_assoc]
  rfl

/-- The header up to its nonce. -/
def headerStart (hdr : CBlockHeader) : Bytes :=
  writeU32 hdr.version.toUInt32 ++ (writeUint256 hdr.prevBlockHash ++ (writeUint256 hdr.merkleRoot ++
    (writeU32 hdr.timestamp ++ writeU32 hdr.bits)))

theorem serializeBlockHeader_eq (hdr : CBlockHeader) : serializeBlockHeader hdr = headerStart hdr ++ writeU32 hdr.nonce := by
  simp only [serializeBlockHeader, headerStart, List.append_assoc]

theorem length_headerStart (hdr : CBlockHeader) : (headerStart hdr).length = 76 := by
  simp [headerStart, writeU32, writeUint256]

/-- The tool fills in the merkle root, the time and the bits of a header of zeros. -/
theorem buildGenesisHeader_append (g : GenesisParams) :
    buildGenesisHeader g = [1, 0, 0, 0] ++ (List.replicate 32 0 ++ (sha256dFull (buildGenesisTx g) ++
      (putU32 g.ts ++ (putU32 g.bits ++ List.replicate 4 0)))) := by
  have hmerkle : (sha256dFull (buildGenesisTx g)).length = 32 := length_sha256Full _
  have hversion : overwrite (List.replicate 80 (0 : UInt8)) 0 [1, 0, 0, 0] = ([1, 0, 0, 0] ++ List.replicate 32 0) ++
      (List.replicate 32 0 ++ (List.replicate 4 0 ++ (List.replicate 4 0 ++ List.replicate 4 0))) := rfl
  unfold buildGenesisHeader
  generalize sha256dFull (buildGenesisTx g) = merkle at hmerkle ⊢
  simp only
  rw [hversion, overwrite_append (by rfl) (by rw [List.length_replicate, hmerkle]), ← List.append_assoc _ merkle,
    overwrite_append (by rw [List.length_append, hmerkle]; rfl) (by rfl), ← List.append_assoc _ (putU32 g.ts),
    overwrite_append (by rw [List.length_append, List.length_append, hmerkle]; rfl) (by rfl)]
  simp only [List.append_assoc]

variable [Crypto]

theorem getBytesLE_sha256d (hsha : ∀ data, Crypto.sha256 data = sha256Full data) (data : Bytes) :
    (sha256d data).getBytesLE = sha256dFull data := by
  rw [sha256d, UInt256.getBytesLE_setBytesLE (Crypto.sha256_length _), hsha, hsha, sha256dFull]

/-- The tool's header is the node's, with a zero nonce. -/
theorem buildGenesisHeader_eq (hsha : ∀ data, Crypto.sha256 data = sha256Full data) (g : GenesisParams)
    (hmessage : g.message.length ≤ 99) (nonce : UInt32) :
    buildGenesisHeader g =
      headerStart (createGenesisBlock g.bits g.reward g.ts g.message (message_fits hmessage) nonce).header ++
        List.replicate 4 0 := by
  have hzero : (0 : UInt256).getBytesLE = List.replicate 32 0 := by decide
  have hmerkle : (computeMerkleRootOfTxs [genesisCoinbase g.reward g.message (message_fits hmessage)]).getBytesLE =
      sha256dFull (buildGenesisTx g) := by
    rw [buildGenesisTx_eq g hmessage, ← getBytesLE_sha256d hsha]
    rfl
  rw [buildGenesisHeader_append]
  simp only [headerStart, createGenesisBlock, writeUint256, hzero, hmerkle, putU32_eq, List.append_assoc]
  rfl

end Serializer

section Midstate

/-- One compression reads 64 bytes. -/
theorem compress_append (s : State) {block : Bytes} (hblock : block.length = 64) (rest : Bytes) :
    compress s (block ++ rest) = compress s block := by
  unfold compress
  rw [List.take_left' hblock, List.take_of_length_le (by omega)]

/-- The end of the last block of a message: a one bit, zeros and the bit length. -/
def padding (len : Nat) : Bytes := 0x80 :: (List.replicate (55 - len % 64) 0 ++ (leEncode 8 (len * 8)).reverse)

/-- SHA-256 of a header from the state after its first 64 bytes. -/
theorem sha256Full_header {start rest : Bytes} (hstart : start.length = 64) (hrest : rest.length = 16) :
    sha256Full (start ++ rest) = digest (compress (compress iv start) (rest ++ padding 80)) := by
  have hlength : (start ++ rest).length = 80 := by rw [List.length_append, hstart, hrest]
  have hlast : lastBlocks rest 80 = rest ++ padding 80 := by
    rw [lastBlocks, hrest]
    rfl
  have hblocks : (rest ++ padding 80).length = 64 := by rw [← hlast, length_lastBlocks (by omega), hrest]; rfl
  unfold sha256Full
  simp only [hlength, Nat.reduceDiv, Nat.mul_one]
  rw [List.drop_left' hstart, hlast, hblocks]
  simp only [Nat.reduceDiv, compressAll]
  rw [compress_append iv hstart]

theorem sha256Full_digest {data : Bytes} (hdata : data.length = 32) :
    sha256Full data = digest (compress iv (data ++ padding 32)) := by
  have hlast : lastBlocks data 32 = data ++ padding 32 := by
    rw [lastBlocks, hdata]
    rfl
  have hblocks : (data ++ padding 32).length = 64 := by rw [← hlast, length_lastBlocks (by omega), hdata]; rfl
  unfold sha256Full
  simp only [hdata, Nat.reduceDiv, Nat.mul_zero, List.drop_zero]
  rw [hlast, hblocks]
  rfl

/-- The state is ready for nonces of a header that starts with these 76 bytes: its two
    blocks end in their padding, whatever the last nonce has left before it. -/
structure Ready (start : Bytes) (s : MiningState) : Prop where
  hState : s.hState = compress iv (start.take 64)
  block2 : ∃ old : Bytes, old.length = 4 ∧ s.block2 = start.drop 64 ++ (old ++ padding 80)
  hResult : s.hResult = iv
  outPad : ∃ old : Bytes, old.length = 32 ∧ s.outPad = old ++ padding 32

/-- The bit length is written behind the first bytes of a block. -/
theorem putBitLength_append {pre : Bytes} (hpre : pre.length ≤ 56) (rest : Bytes) (bitlen : Nat) :
    putBitLength (pre ++ rest) bitlen = pre ++ (List.range 8).foldl
      (fun rest i => overwrite rest (63 - i - pre.length) [UInt8.ofNat (bitlen >>> (8 * i))]) rest := by
  have hfold : ∀ indices : List Nat, (∀ i ∈ indices, i < 8) → ∀ rest : Bytes,
      indices.foldl (fun block i => overwrite block (63 - i) [UInt8.ofNat (bitlen >>> (8 * i))]) (pre ++ rest) =
        pre ++ indices.foldl
          (fun rest i => overwrite rest (63 - i - pre.length) [UInt8.ofNat (bitlen >>> (8 * i))]) rest := by
    intro indices
    induction indices with
    | nil => exact fun _ _ => rfl
    | cons i indices ih =>
      intro hindices rest
      rw [List.forall_mem_cons] at hindices
      rw [List.foldl_cons, overwrite_append_right (by omega), ih hindices.2]
      rfl
  exact hfold (List.range 8) (fun i hi => List.mem_range.mp hi) rest

theorem prepare_ready {start old : Bytes} (hstart : start.length = 76) (hold : old.length = 4) :
    Ready start (prepare (start ++ old)) := by
  have hsplit : start ++ old = start.take 64 ++ (start.drop 64 ++ old) := by
    rw [← List.append_assoc, List.take_append_drop]
  have hfirst : (start.take 64).length = 64 := by rw [List.length_take]; omega
  have hsecond : (start.drop 64 ++ old).length = 16 := by rw [List.length_append, List.length_drop]; omega
  have htail : ((start ++ old).drop 64).take 16 = start.drop 64 ++ old := by
    rw [hsplit, List.drop_left' hfirst, List.take_of_length_le (by omega)]
  have hcopied : overwrite (List.replicate 64 0) 0 (start.drop 64 ++ old) = start.drop 64 ++ old ++ List.replicate 48 0 :=
    overwrite_append (show ([] : Bytes).length = 0 from rfl)
      (show (List.replicate 16 (0 : UInt8)).length = _ from hsecond.symm) (List.replicate 48 0)
  have hpad : putBitLength (overwrite (List.replicate 64 0) 32 [0x80]) 256 = List.replicate 32 0 ++ padding 32 := by
    decide +kernel
  refine ⟨?_, ⟨old, hold, ?_⟩, rfl, ⟨List.replicate 32 0, rfl, hpad⟩⟩
  · rw [hsplit]
    exact compress_append iv hfirst _
  · have hblock2 : (prepare (start ++ old)).block2 =
        putBitLength (overwrite (overwrite (List.replicate 64 0) 0 (start.drop 64 ++ old)) 16 [0x80]) (80 * 8) := by
      rw [prepare, htail]
    rw [hblock2, hcopied, overwrite_append_right (by omega), putBitLength_append (by omega), hsecond, ← List.append_assoc]
    rfl

variable {start : Bytes} {s : MiningState}

theorem Ready.overwrite_block2 (hready : Ready start s) (hstart : start.length = 76) (nonce : UInt32) :
    overwrite s.block2 12 (putU32 nonce) = start.drop 64 ++ (writeU32 nonce ++ padding 80) := by
  obtain ⟨old, hold, hblock2⟩ := hready.block2
  rw [hblock2, overwrite_append (by rw [List.length_drop, hstart]) (by rw [hold]; rfl), putU32_eq]

theorem Ready.overwrite_outPad (hready : Ready start s) (h : State) :
    overwrite s.outPad 0 (digest h) = digest h ++ padding 32 := by
  obtain ⟨old, hold, houtPad⟩ := hready.outPad
  rw [houtPad]
  exact overwrite_append (show ([] : Bytes).length = 0 from rfl) (show old.length = (digest h).length from hold) _

/-- The hash for a nonce is the double SHA-256 of the header with that nonce. -/
theorem Ready.mineHash_fst (hready : Ready start s) (hstart : start.length = 76) (nonce : UInt32) :
    (mineHash s nonce).1 = sha256dFull (start ++ writeU32 nonce) := by
  have hsplit : start ++ writeU32 nonce = start.take 64 ++ (start.drop 64 ++ writeU32 nonce) := by
    rw [← List.append_assoc, List.take_append_drop]
  have hfirst : (start.take 64).length = 64 := by rw [List.length_take]; omega
  have hrest : (start.drop 64 ++ writeU32 nonce).length = 16 := by
    rw [List.length_append, List.length_drop, hstart]
    rfl
  unfold mineHash
  simp only
  rw [hready.hState, hready.hResult, hready.overwrite_block2 hstart, hready.overwrite_outPad, sha256dFull, hsplit,
    sha256Full_header hfirst hrest, List.append_assoc, sha256Full_digest rfl]

/-- Hashing a nonce leaves the state ready for the next one. -/
theorem Ready.mineHash_snd (hready : Ready start s) (hstart : start.length = 76) (nonce : UInt32) :
    Ready start (mineHash s nonce).2 :=
  ⟨hready.hState, ⟨writeU32 nonce, rfl, hready.overwrite_block2 hstart nonce⟩, hready.hResult,
    ⟨digest _, rfl, hready.overwrite_outPad _⟩⟩

/-- The state after some nonces have been hashed. -/
def afterNonces (s : MiningState) (nonces : List UInt32) : MiningState :=
  nonces.foldl (fun s nonce => (mineHash s nonce).2) s

theorem Ready.afterNonces (hready : Ready start s) (hstart : start.length = 76) (nonces : List UInt32) :
    Ready start (afterNonces s nonces) := by
  induction nonces generalizing s with
  | nil => exact hready
  | cons nonce rest ih => exact ih (hready.mineHash_snd hstart nonce)

end Midstate

section Agreement

variable [Crypto]

/-- For every nonce, and whatever nonces the tool has hashed before, it finds the hash
    that the node computes for the genesis block with that nonce. -/
theorem mineHash_eq_getHash (hsha : ∀ data, Crypto.sha256 data = sha256Full data) {message : Bytes}
    (hmessage : message.length ≤ 99) (ts bits : UInt32) (reward : Int64) (nonces : List UInt32) (nonce : UInt32) :
    UInt256.setBytesLE (mineHash (afterNonces (prepare (buildGenesisHeader ⟨ts, bits, reward, message⟩)) nonces) nonce).1 =
      (createGenesisBlock bits reward ts message (message_fits hmessage) nonce).getHash := by
  let header := (createGenesisBlock bits reward ts message (message_fits hmessage) nonce).header
  have hstart := length_headerStart header
  have hready : Ready (headerStart header) (prepare (buildGenesisHeader ⟨ts, bits, reward, message⟩)) := by
    rw [buildGenesisHeader_eq hsha ⟨ts, bits, reward, message⟩ hmessage nonce]
    exact prepare_ready hstart rfl
  rw [(hready.afterNonces hstart nonces).mineHash_fst hstart, CBlock.getHash, CBlockHeader.getHash, sha256d,
    serializeBlockHeader_eq, hsha, hsha]
  rfl

end Agreement

section

attribute [local instance] toolCrypto

theorem mineHash_eq_getHash_regtest :
    UInt256.setBytesLE (mineHash (afterNonces (prepare (buildGenesisHeader
      ⟨CDX_GENESIS_TIMESTAMP, REGTEST_TARGET_BITS, Int64.ofInt INITIAL_BLOCK_REWARD, genesisMessage⟩)) [7, 11]) 0).1 =
      (getGenesisBlock regtestParams).getHash :=
  mineHash_eq_getHash (fun _ => rfl) (by decide) CDX_GENESIS_TIMESTAMP REGTEST_TARGET_BITS
    (Int64.ofInt INITIAL_BLOCK_REWARD) [7, 11] 0

end

end cdx
