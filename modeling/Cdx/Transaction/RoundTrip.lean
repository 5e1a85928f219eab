import Cdx.Crypto.Sha256
import Cdx.Transaction.Serializer

namespace cdx

open codec

theorem reads_u32 (v : UInt32) : Reads readU32 (writeU32 v) v := by
  have hbytes : Reads (readBytes 4) (writeU32 v) (writeU32 v) := reads_take (length_leEncode 4 _)
  have hvalue : UInt32.ofNat (leDecode (writeU32 v)) = v := by
    rw [writeU32, leDecode_leEncode_of_lt (by simpa using v.toNat_lt)]
    simp
  have hread := hbytes.map fun b => UInt32.ofNat (leDecode b)
  rwa [hvalue] at hread

theorem reads_u64 (v : UInt64) : Reads readU64 (writeU64 v) v := by
  have hbytes : Reads (readBytes 8) (writeU64 v) (writeU64 v) := reads_take (length_leEncode 8 _)
  have hvalue : UInt64.ofNat (leDecode (writeU64 v)) = v := by
    rw [writeU64, leDecode_leEncode_of_lt (by simpa using v.toNat_lt)]
    simp
  have hread := hbytes.map fun b => UInt64.ofNat (leDecode b)
  rwa [hvalue] at hread

theorem reads_uint256 (h : UInt256) : Reads readUint256 (writeUint256 h) h := by
  have hbytes : Reads (readBytes 32) (writeUint256 h) (writeUint256 h) :=
    reads_take h.length_getBytesLE
  have hvalue : UInt256.setBytesLE (writeUint256 h) = h := h.setBytesLE_getBytesLE
  have hread := hbytes.map UInt256.setBytesLE
  rwa [hvalue] at hread

private theorem reads_leDecode {width v : Nat} (hv : v < 256 ^ width) :
    Reads (leDecode <$> readBytes width) (leEncode width v) v := by
  have hbytes : Reads (readBytes width) (leEncode width v) (leEncode width v) :=
    reads_take (length_leEncode width _)
  have hread := hbytes.map leDecode
  rwa [leDecode_leEncode_of_lt hv] at hread

private theorem reads_firstByte (b : UInt8) :
    Reads ((fun bytes => bytes.headD 0) <$> readBytes 1) [b] b :=
  (reads_take (by rfl) : Reads (readBytes 1) [b] [b]).map fun bytes => bytes.headD 0

/-- What `readVarInt` does after the first byte. -/
private def readVarIntTail (first : UInt8) : Reader Nat :=
  if first < 0xfd then pure first.toNat
  else if first = 0xfd then leDecode <$> readBytes 2
  else if first = 0xfe then leDecode <$> readBytes 4
  else leDecode <$> readBytes 8

/-- Every 64-bit count is read back from its compact size. -/
theorem reads_varInt {v : Nat} (hv : v < 2 ^ 64) : Reads readVarInt (writeVarInt v) v := by
  have hfirst (b : UInt8) {rest : Bytes} (htail : Reads (readVarIntTail b) rest v) :
      Reads readVarInt (b :: rest) v := (reads_firstByte b).bind htail
  unfold writeVarInt
  split
  next hsmall =>
    have hvalue : (UInt8.ofNat v).toNat = v := by
      simp only [UInt8.toNat_ofNat']
      omega
    have hbyte : UInt8.ofNat v < 0xfd := by
      rw [UInt8.lt_iff_toNat_lt, hvalue]
      exact hsmall
    apply hfirst
    rw [readVarIntTail, if_pos hbyte, hvalue]
    exact reads_pure v
  next hsmall =>
    split
    · exact hfirst 0xfd (reads_leDecode (by omega))
    · split
      · exact hfirst 0xfe (reads_leDecode (by omega))
      · exact hfirst 0xff (reads_leDecode (by omega))

theorem reads_count {n : Nat} (hn : n ≤ 100000) : Reads readCount (writeVarInt n) n :=
  (reads_varInt (lt_of_le_of_lt hn (by norm_num))).atMost hn

section Sizes

-- The readers with the compact sizes left open: `size` reads the lengths of scripts
-- and `count` the numbers of inputs and outputs.
variable (count size : Reader Nat)

def readVarStrWith : Reader Script := do
  let n ← size
  let d ← get
  if n > d.remaining then failure
  let bytes ← readBytes n
  if h : bytes.length < 2 ^ 64 then pure ⟨bytes, h⟩ else failure

def readTxInWith : Reader CTxIn := do
  let hash ← readUint256
  let n ← readU32
  let scriptSig ← readVarStrWith size
  let sequence ← readU32
  pure { prevout := ⟨hash, n⟩, scriptSig, sequence }

def readTxOutWith : Reader CTxOut := do
  let v ← readU64
  let scriptPubKey ← readVarStrWith size
  pure { value := v.toInt64, scriptPubKey }

def readTransactionWith : Reader CTransaction := do
  let ver ← readU32
  let nvin ← count
  let vin ← many (readTxInWith size) nvin
  let nvout ← count
  let vout ← many (readTxOutWith size) nvout
  let lockTime ← readU32
  pure { version := ver.toInt32, vin, vout, lockTime }

theorem readTransaction_eq : readTransaction = readTransactionWith readCount readVarInt := rfl

variable {count size}

theorem reads_varStrWith {v : Script} (hsize : Reads size (writeVarInt v.val.length) v.val.length) :
    Reads (readVarStrWith size) (writeVarStr v) v := by
  obtain ⟨bytes, hlength⟩ := v
  refine hsize.bind ?_
  intro before after
  have hroom : ¬ bytes.length > (⟨before ++ (bytes ++ after), before.length⟩ : Cursor UInt8).remaining := by
    simp [Cursor.remaining]
  have htake := reads_take (β := UInt8) (rfl : bytes.length = bytes.length) before after
  simp only [StateT.run_bind, StateT.run_get, Option.pure_def, Option.bind_eq_bind, Option.bind_some,
    if_neg hroom, StateT.run_pure, readBytes, htake, dif_pos hlength]

variable (hsize : ∀ script : Script, Reads size (writeVarInt script.val.length) script.val.length)
include hsize

theorem reads_txInWith (i : CTxIn) : Reads (readTxInWith size) (serializeTxIn i) i := by
  refine (reads_uint256 i.prevout.hash).bind ((reads_u32 i.prevout.n).bind ?_)
  refine (reads_varStrWith (hsize i.scriptSig)).bind ?_
  exact (reads_u32 i.sequence).bind_pure _

theorem reads_txOutWith (out : CTxOut) : Reads (readTxOutWith size) (serializeTxOut out) out := by
  refine (reads_u64 out.value.toUInt64).bind ?_
  exact (reads_varStrWith (hsize out.scriptPubKey)).bind_pure (fun script => (⟨out.value, script⟩ : CTxOut))

theorem reads_transactionWith {tx : CTransaction} (hvin : Reads count (writeVarInt tx.vin.length) tx.vin.length)
    (hvout : Reads count (writeVarInt tx.vout.length) tx.vout.length) :
    Reads (readTransactionWith count size) (serializeTransaction tx) tx := by
  refine (reads_u32 tx.version.toUInt32).bind (hvin.bind ?_)
  refine (reads_many fun i _ => reads_txInWith hsize i).bind (hvout.bind ?_)
  refine (reads_many fun out _ => reads_txOutWith hsize out).bind ?_
  exact (reads_u32 tx.lockTime).bind_pure
    (fun lockTime => (⟨tx.version, tx.vin, tx.vout, lockTime⟩ : CTransaction))

end Sizes

theorem reads_varStr (v : Script) : Reads readVarStr (writeVarStr v) v := reads_varStrWith (reads_varInt v.property)

/-- The counts a decoder accepts. Blocks that pass `checkBlock` stay far below. -/
def CTransaction.Decodable (tx : CTransaction) : Prop := tx.vin.length ≤ 100000 ∧ tx.vout.length ≤ 100000

def CBlock.Decodable (blk : CBlock) : Prop := blk.vtx.length ≤ 100000 ∧ ∀ tx ∈ blk.vtx, tx.Decodable

instance (tx : CTransaction) : Decidable tx.Decodable := inferInstanceAs (Decidable (_ ∧ _))

instance (blk : CBlock) : Decidable blk.Decodable := inferInstanceAs (Decidable (_ ∧ _))

theorem reads_transaction {tx : CTransaction} (htx : tx.Decodable) :
    Reads readTransaction (serializeTransaction tx) tx := by
  rw [readTransaction_eq]
  exact reads_transactionWith (fun script => reads_varInt script.property) (reads_count htx.1) (reads_count htx.2)

theorem deserializeTransaction_serializeTransaction {tx : CTransaction} (htx : tx.Decodable)
    (trailing : Bytes) : deserializeTransaction (serializeTransaction tx ++ trailing) = some tx := by
  rw [deserializeTransaction, (reads_transaction htx).run_start trailing]
  rfl

/-- The encoding tells decodable transactions apart. -/
theorem serializeTransaction_injective {tx tx' : CTransaction} (htx : tx.Decodable)
    (htx' : tx'.Decodable) (hsame : serializeTransaction tx = serializeTransaction tx') : tx = tx' := by
  have hread := reads_transaction htx
  rw [hsame] at hread
  exact hread.injective (reads_transaction htx')

/-- The vectors of a transaction have 64-bit sizes. -/
def CTransaction.Sized (tx : CTransaction) : Prop := tx.vin.length < 2 ^ 64 ∧ tx.vout.length < 2 ^ 64

instance (tx : CTransaction) : Decidable tx.Sized := inferInstanceAs (Decidable (_ ∧ _))

/-- The encoding tells all transactions apart, also those too large for the decoder. -/
theorem serializeTransaction_inj_of_sized {tx tx' : CTransaction} (htx : tx.Sized) (htx' : tx'.Sized)
    (hsame : serializeTransaction tx = serializeTransaction tx') : tx = tx' := by
  have hreads : ∀ {tx : CTransaction}, tx.Sized →
      Reads (readTransactionWith readVarInt readVarInt) (serializeTransaction tx) tx := fun htx =>
    reads_transactionWith (fun script => reads_varInt script.property) (reads_varInt htx.1) (reads_varInt htx.2)
  have hread := hreads htx
  rw [hsame] at hread
  exact hread.injective (hreads htx')

theorem reads_blockHeader (hdr : CBlockHeader) : Reads readBlockHeader (serializeBlockHeader hdr) hdr := by
  refine (reads_u32 hdr.version.toUInt32).bind ((reads_uint256 hdr.prevBlockHash).bind ?_)
  refine (reads_uint256 hdr.merkleRoot).bind ((reads_u32 hdr.timestamp).bind ?_)
  refine (reads_u32 hdr.bits).bind ?_
  exact (reads_u32 hdr.nonce).bind_pure (fun nonce => (⟨hdr.version, hdr.prevBlockHash, hdr.merkleRoot,
    hdr.timestamp, hdr.bits, nonce⟩ : CBlockHeader))

theorem deserializeBlockHeader_serializeBlockHeader (hdr : CBlockHeader) (trailing : Bytes) :
    deserializeBlockHeader (serializeBlockHeader hdr ++ trailing) = some hdr := by
  rw [deserializeBlockHeader, (reads_blockHeader hdr).run_start trailing]
  rfl

theorem length_serializeBlockHeader (hdr : CBlockHeader) : (serializeBlockHeader hdr).length = 80 := by
  simp [serializeBlockHeader, writeU32, writeUint256]

/-- The block loop advances by the size of the transaction's own encoding. On
    an encoding it advances by what the decoder consumed. -/
theorem reads_blockTx {tx : CTransaction} (htx : tx.Decodable) :
    Reads readBlockTx (serializeTransaction tx) tx := by
  intro before after
  simp only [StateT.run, readBlockTx, List.drop_left,
    deserializeTransaction_serializeTransaction htx after, Option.map_some]

/-- A block whose counts the decoder accepts is read back exactly, whatever
    bytes follow its encoding. -/
theorem deserializeBlock_serializeBlock {blk : CBlock} (hblk : blk.Decodable) (trailing : Bytes) :
    deserializeBlock (serializeBlock blk ++ trailing) = some blk := by
  obtain ⟨hcount, htxs⟩ := hblk
  have hbody := (reads_count hcount).bind (reads_many fun tx htx => reads_blockTx (htxs tx htx))
    (serializeBlockHeader blk.header) trailing
  rw [length_serializeBlockHeader] at hbody
  have hassoc : serializeBlock blk ++ trailing = serializeBlockHeader blk.header ++
      ((writeVarInt blk.vtx.length ++ blk.vtx.flatMap serializeTransaction) ++ trailing) := by
    simp only [serializeBlock, List.append_assoc]
  rw [deserializeBlock, hassoc, deserializeBlockHeader_serializeBlockHeader]
  simp only [Option.bind_eq_bind, Option.bind_some, hbody, Option.pure_def]

/-- Transactions, headers and blocks whose counts the decoder accepts come back from the
    wire as they were, whatever bytes follow, and so do their ids. -/
theorem wireFormat_roundTrip [Crypto] {tx : CTransaction} (htx : tx.Decodable) (hdr : CBlockHeader) {blk : CBlock}
    (hblk : blk.Decodable) (trailing : Bytes) :
    (deserializeTransaction (serializeTransaction tx ++ trailing) = some tx ∧
      (deserializeTransaction (serializeTransaction tx ++ trailing)).map getTxID = some (getTxID tx)) ∧
    (deserializeBlockHeader (serializeBlockHeader hdr ++ trailing) = some hdr ∧
      (deserializeBlockHeader (serializeBlockHeader hdr ++ trailing)).map CBlockHeader.getHash = some hdr.getHash) ∧
    (deserializeBlock (serializeBlock blk ++ trailing) = some blk ∧
      (deserializeBlock (serializeBlock blk ++ trailing)).map CBlock.getHash = some blk.getHash) := by
  have htxRead := deserializeTransaction_serializeTransaction htx trailing
  have hhdrRead := deserializeBlockHeader_serializeBlockHeader hdr trailing
  have hblkRead := deserializeBlock_serializeBlock hblk trailing
  rw [htxRead, hhdrRead, hblkRead]
  exact ⟨⟨rfl, rfl⟩, ⟨rfl, rfl⟩, ⟨rfl, rfl⟩⟩

section

attribute [local instance] toolCrypto

/-- A block of one transaction, with scripts on both sides. -/
def sampleBlock : CBlock where
  header := { prevBlockHash := 0, merkleRoot := 0, timestamp := 1, bits := 0x207fffff, nonce := 2 }
  vtx := [{
    vin := [{ prevout := ⟨0, 0xffffffff⟩, scriptSig := ⟨[0x01, 0x02], by decide⟩ }]
    vout := [{ value := -1, scriptPubKey := ⟨[0x51], by decide⟩ }] }]

theorem wireFormat_roundTrip_sampleBlock : sampleBlock.Decodable ∧
    deserializeBlock (serializeBlock sampleBlock ++ [0xfd]) = some sampleBlock ∧
      ∀ tx ∈ sampleBlock.vtx, deserializeTransaction (serializeTransaction tx ++ [0xfd]) = some tx := by
  have hblk : sampleBlock.Decodable := by decide
  refine ⟨hblk, ?_, ?_⟩
  · exact (wireFormat_roundTrip (hblk.2 _ List.mem_cons_self) sampleBlock.header hblk [0xfd]).2.2.1
  · intro tx htx
    exact (wireFormat_roundTrip (hblk.2 tx htx) sampleBlock.header hblk [0xfd]).1.1

end

end cdx
