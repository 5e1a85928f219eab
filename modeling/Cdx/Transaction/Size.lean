import Cdx.Transaction.RoundTrip

namespace cdx

open codec

/-- The bytes of a compact size. -/
def varIntSize (v : Nat) : Nat := if v < 0xfd then 1 else if v ≤ 0xffff then 3 else if v ≤ 0xffffffff then 5 else 9

theorem length_writeVarInt (v : Nat) : (writeVarInt v).length = varIntSize v := by
  unfold writeVarInt varIntSize
  split
  · rfl
  split
  · rw [List.length_cons, length_leEncode]
  split
  · rw [List.length_cons, length_leEncode]
  · rw [List.length_cons, length_leEncode]

/-- The bytes of a script with its length in front. -/
def scriptSize (script : Script) : Nat := varIntSize script.val.length + script.val.length

theorem length_writeVarStr (script : Script) : (writeVarStr script).length = scriptSize script := by
  rw [writeVarStr, List.length_append, length_writeVarInt, scriptSize]

/-- An input is its outpoint, its script and its sequence number. -/
def CTxIn.size (i : CTxIn) : Nat := 36 + scriptSize i.scriptSig + 4

/-- An output is its value and its script. -/
def CTxOut.size (out : CTxOut) : Nat := 8 + scriptSize out.scriptPubKey

/-- The bytes that a transaction takes on the wire, from its counts and the lengths of its scripts. -/
def CTransaction.size (tx : CTransaction) : Nat :=
  4 + varIntSize tx.vin.length + (tx.vin.map fun i => i.size).sum + varIntSize tx.vout.length +
    (tx.vout.map fun out => out.size).sum + 4

/-- The bytes that a block takes on the wire. -/
def CBlock.size (blk : CBlock) : Nat := 80 + varIntSize blk.vtx.length + (blk.vtx.map fun tx => tx.size).sum

theorem length_writeU32 (v : UInt32) : (writeU32 v).length = 4 := length_leEncode 4 _

theorem length_serializeTxIn (i : CTxIn) : (serializeTxIn i).length = i.size := by
  have hhash : (writeUint256 i.prevout.hash).length = 32 := by simp [writeUint256]
  simp only [serializeTxIn, List.length_append, hhash, length_writeU32, length_writeVarStr, CTxIn.size]
  omega

theorem length_serializeTxOut (out : CTxOut) : (serializeTxOut out).length = out.size := by
  have hvalue : (writeU64 out.value.toUInt64).length = 8 := length_leEncode 8 _
  rw [serializeTxOut, List.length_append, hvalue, length_writeVarStr, CTxOut.size]

theorem length_serializeTransaction (tx : CTransaction) : (serializeTransaction tx).length = tx.size := by
  simp only [serializeTransaction, List.length_append, List.length_flatMap, length_writeU32, length_writeVarInt,
    length_serializeTxIn, length_serializeTxOut, CTransaction.size]
  omega

theorem length_serializeBlock (blk : CBlock) : (serializeBlock blk).length = blk.size := by
  simp only [serializeBlock, List.length_append, List.length_flatMap, length_serializeBlockHeader, length_writeVarInt,
    length_serializeTransaction, CBlock.size]
  omega

end cdx
