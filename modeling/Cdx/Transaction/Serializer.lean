import Cdx.Crypto.Hash
import Cdx.Transaction.Types

namespace cdx

open codec

/-- The reading end of the wire format: a byte buffer and the cursor into it. -/
abbrev CDeserializer := Cursor UInt8

abbrev Reader (α : Type) := Decoder UInt8 α

def writeU32 (v : UInt32) : Bytes := leEncode 4 v.toNat

def writeU64 (v : UInt64) : Bytes := leEncode 8 v.toNat

/-- The compact size of a count: one byte, or a marker and two, four or eight. -/
def writeVarInt (v : Nat) : Bytes :=
  if v < 0xfd then [UInt8.ofNat v]
  else if v ≤ 0xffff then 0xfd :: leEncode 2 v
  else if v ≤ 0xffffffff then 0xfe :: leEncode 4 v
  else 0xff :: leEncode 8 v

def writeVarStr (v : Script) : Bytes := writeVarInt v.val.length ++ v.val

def writeUint256 (h : UInt256) : Bytes := h.getBytesLE

def readBytes (n : Nat) : Reader Bytes := take n

def readU32 : Reader UInt32 := (fun b => UInt32.ofNat (leDecode b)) <$> readBytes 4

def readU64 : Reader UInt64 := (fun b => UInt64.ofNat (leDecode b)) <$> readBytes 8

def readVarInt : Reader Nat := do
  let first ← (fun b => b.headD 0) <$> readBytes 1
  if first < 0xfd then pure first.toNat
  else if first = 0xfd then leDecode <$> readBytes 2
  else if first = 0xfe then leDecode <$> readBytes 4
  else leDecode <$> readBytes 8

/-- The announced length is checked against the bytes left before it is used. -/
def readVarStr : Reader Script := do
  let n ← readVarInt
  let d ← get
  if n > d.remaining then failure
  let bytes ← readBytes n
  -- the length came out of a 64-bit word, so it always fits one
  if h : bytes.length < 2 ^ 64 then pure ⟨bytes, h⟩ else failure

def readUint256 : Reader UInt256 := UInt256.setBytesLE <$> readBytes 32

def serializeTxIn (i : CTxIn) : Bytes :=
  writeUint256 i.prevout.hash ++ (writeU32 i.prevout.n ++ (writeVarStr i.scriptSig ++ writeU32 i.sequence))

def serializeTxOut (out : CTxOut) : Bytes := writeU64 out.value.toUInt64 ++ writeVarStr out.scriptPubKey

def serializeTransaction (tx : CTransaction) : Bytes :=
  writeU32 tx.version.toUInt32 ++ (writeVarInt tx.vin.length ++ (tx.vin.flatMap serializeTxIn ++
    (writeVarInt tx.vout.length ++ (tx.vout.flatMap serializeTxOut ++ writeU32 tx.lockTime))))

def readTxIn : Reader CTxIn := do
  let hash ← readUint256
  let n ← readU32
  let scriptSig ← readVarStr
  let sequence ← readU32
  pure { prevout := ⟨hash, n⟩, scriptSig, sequence }

def readTxOut : Reader CTxOut := do
  let v ← readU64
  let scriptPubKey ← readVarStr
  pure { value := v.toInt64, scriptPubKey }

/-- A count above the decoder's limit is refused before anything is read. -/
def readCount : Reader Nat := do
  let n ← readVarInt
  if n > 100000 then failure
  pure n

def readTransaction : Reader CTransaction := do
  let ver ← readU32
  let nvin ← readCount
  let vin ← many readTxIn nvin
  let nvout ← readCount
  let vout ← many readTxOut nvout
  let lockTime ← readU32
  pure { version := ver.toInt32, vin, vout, lockTime }

def deserializeTransaction (data : Bytes) : Option CTransaction :=
  (readTransaction.run ⟨data, 0⟩).map Prod.fst

def serializeBlockHeader (hdr : CBlockHeader) : Bytes :=
  writeU32 hdr.version.toUInt32 ++ (writeUint256 hdr.prevBlockHash ++ (writeUint256 hdr.merkleRoot ++
    (writeU32 hdr.timestamp ++ (writeU32 hdr.bits ++ writeU32 hdr.nonce))))

def readBlockHeader : Reader CBlockHeader := do
  let ver ← readU32
  let prevBlockHash ← readUint256
  let merkleRoot ← readUint256
  let timestamp ← readU32
  let bits ← readU32
  let nonce ← readU32
  pure { version := ver.toInt32, prevBlockHash, merkleRoot, timestamp, bits, nonce }

def deserializeBlockHeader (data : Bytes) : Option CBlockHeader :=
  (readBlockHeader.run ⟨data, 0⟩).map Prod.fst

def serializeBlock (blk : CBlock) : Bytes :=
  serializeBlockHeader blk.header ++ (writeVarInt blk.vtx.length ++ blk.vtx.flatMap serializeTransaction)

/-- One round of the transaction loop of `DeserializeBlock`: the transaction is
    decoded from the rest of the buffer, and the cursor then advances by the
    size of its own encoding, not by what the decoder consumed. -/
def readBlockTx : Reader CTransaction := fun d =>
  (deserializeTransaction (d.buf.drop d.pos)).map fun tx =>
    (tx, ⟨d.buf, d.pos + (serializeTransaction tx).length⟩)

/-- The header is decoded on its own; the cursor of the body then starts at 80. -/
def deserializeBlock (data : Bytes) : Option CBlock := do
  let header ← deserializeBlockHeader data
  let body : Reader (List CTransaction) := do
    let ntx ← readCount
    many readBlockTx ntx
  let (vtx, _) ← body.run ⟨data, 80⟩
  pure { header, vtx }

variable [Crypto]

def getTxID (tx : CTransaction) : UInt256 := sha256d (serializeTransaction tx)

def CBlockHeader.getHash (hdr : CBlockHeader) : UInt256 := sha256d (serializeBlockHeader hdr)

def CBlock.getHash (blk : CBlock) : UInt256 := blk.header.getHash

end cdx
