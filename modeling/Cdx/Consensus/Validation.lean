import Cdx.Blockchain.Block
import Cdx.Consensus.Difficulty
import Cdx.Consensus.Rewards
import Cdx.Script.Interpreter
import Cdx.Utxo.CoinsView

namespace cdx

variable [Crypto]

/-- The output loop of `CheckTransaction`, from the running total `totalOut`. -/
def checkOutputs (totalOut : Int) : List CTxOut → Except Reject Unit
  | [] => .ok ()
  | out :: rest =>
    if out.value.toInt < 0 then .error (.error "negative output")
    else if out.value.toInt > MAX_MONEY then .error (.error "output exceeds max money")
    else do
      let totalOut ← addI64 .totalOut totalOut out.value.toInt
      if totalOut > MAX_MONEY then .error (.error "total output exceeds max money")
      else checkOutputs totalOut rest

/-- The part of `CheckTransaction` that depends on the kind of transaction. -/
def checkInputKind (tx : CTransaction) : Except Reject Unit :=
  if tx.isCoinBase then
    match tx.vin with
    | [] => .ok ()
    | i :: _ =>
      if i.scriptSig.val.length < 2 ∨ i.scriptSig.val.length > 100 then
        .error (.error "coinbase scriptSig size invalid")
      else .ok ()
  else if tx.vin.any fun i => i.prevout.hash.isZero then .error (.error "null prevout in non-coinbase")
  else .ok ()

def checkTransaction (tx : CTransaction) : Except Reject Unit :=
  if tx.vin.isEmpty then .error (.error "no inputs")
  else if tx.vout.isEmpty then .error (.error "no outputs")
  else if tx.vin.length > MAX_TX_COUNT_PER_BLOCK then .error (.error "too many inputs")
  else if tx.vout.length > MAX_TX_COUNT_PER_BLOCK then .error (.error "too many outputs")
  else if ¬ (tx.vin.map CTxIn.prevout).Nodup then .error (.error "duplicate inputs")
  else do
    checkOutputs 0 tx.vout
    checkInputKind tx

/-- The inputs as `SignatureHash` hashes them: every script emptied but the one
    of input `index`, which becomes the script being spent. -/
def sighashInputs (scriptPubKey : Script) : Nat → List CTxIn → List CTxIn
  | _, [] => []
  | 0, i :: rest =>
    { i with scriptSig := scriptPubKey } :: rest.map fun i => { i with scriptSig := ⟨[], by decide⟩ }
  | index + 1, i :: rest => { i with scriptSig := ⟨[], by decide⟩ } :: sighashInputs scriptPubKey index rest

def signatureHash (tx : CTransaction) (inputIndex : Nat) (scriptPubKey : Script) : UInt256 :=
  let txCopy := { tx with vin := sighashInputs scriptPubKey inputIndex tx.vin }
  sha256d (serializeTransaction txCopy ++ [0x01, 0x00, 0x00, 0x00])

/-- The input loop of `CheckTxInputs`, at input `index` with the sum `inSum` so far. -/
def sumInputs (tx : CTransaction) (view : CCoinsView) (height : Int) :
    Nat → Int → List CTxIn → Except Reject Int
  | _, inSum, [] => .ok inSum
  | index, inSum, i :: rest =>
    match view.getCoin i.prevout with
    | none => .error (.error "input not found in UTXO set")
    | some coin =>
      if coin.isSpendable height = false then .error (.error "coinbase input not mature")
      else
        match verifyScript i.scriptSig.val coin.scriptPubKey.val
            (signatureHash tx index coin.scriptPubKey).getBytesLE with
        | .error verr => .error (.error ("signature verification failed: " ++ verr))
        | .ok () => do
          let inSum ← addI64 .inSum inSum coin.value.toInt
          if inSum > MAX_MONEY then .error (.error "input sum overflow")
          else sumInputs tx view height (index + 1) inSum rest

/-- A loop that adds up output values. -/
def sumValues (sum : Sum64) (total : Int) : List CTxOut → Except Reject Int
  | [] => .ok total
  | out :: rest => do
    let total ← addI64 sum total out.value.toInt
    sumValues sum total rest

/-- The fee of a transaction whose inputs the view can pay. -/
def checkTxInputs (tx : CTransaction) (view : CCoinsView) (height : Int) : Except Reject Int :=
  if tx.isCoinBase then .error (.error "coinbase has no inputs to check")
  else do
    let inSum ← sumInputs tx view height 0 0 tx.vin
    let outSum ← sumValues .outSum 0 tx.vout
    if inSum < outSum then .error (.error "inputs < outputs")
    else addI64 .fee inSum (-outSum)

/-- `CheckBlockHeader`; `prev` is `none` for the genesis block. -/
def checkBlockHeader (hdr : CBlockHeader) (prev : Option CBlockHeader) (params : ChainParams) :
    Except String Unit :=
  if checkProofOfWork hdr.getHash hdr.bits = false then .error "proof of work failed"
  else
    match prev with
    | none =>
      if params.genesisHashHex ≠ "" ∧ hdr.getHash ≠ UInt256.fromHexReversed (ascii params.genesisHashHex) then
        .error "genesis hash mismatch"
      else .ok ()
    | some prev =>
      if hdr.prevBlockHash ≠ prev.getHash then .error "previous block hash mismatch"
      else if hdr.timestamp ≤ prev.timestamp then .error "timestamp not greater than prev"
      else .ok ()

/-- The loop of `CheckBlock` that spends the inputs of one transaction. -/
def spendInputs : List CTxIn → CCoinsView → Except Reject CCoinsView
  | [], view => .ok view
  | i :: rest, view =>
    match view.spendCoin i.prevout with
    | (true, view) => spendInputs rest view
    | (false, _) => .error (.error "double spend")

/-- The loop of `CheckBlock` that adds the outputs of one transaction, from index `j`. -/
def addOutputs (txid : UInt256) (height : Int) : Nat → List CTxOut → CCoinsView → CCoinsView
  | _, [], view => view
  | j, out :: rest, view =>
    addOutputs txid height (j + 1) rest
      (view.addCoin ⟨txid, UInt32.ofNat j⟩
        { value := out.value, scriptPubKey := out.scriptPubKey, height := height, isCoinbase := false })

/-- One round of the first pass of `CheckBlock`. -/
def connectTx (height : Int) (tx : CTransaction) (view : CCoinsView) (fees : Int) :
    Except Reject (CCoinsView × Int) := do
  checkTransaction tx
  let fee ← checkTxInputs tx view height
  let fees ← addI64 .fees fees fee
  let spent ← spendInputs tx.vin view
  pure (addOutputs (getTxID tx) height 0 tx.vout spent, fees)

/-- The first pass of `CheckBlock`, over the transactions after the coinbase. -/
def connectTxs (height : Int) : List CTransaction → CCoinsView → Int → Except Reject (CCoinsView × Int)
  | [], view, fees => .ok (view, fees)
  | tx :: rest, view, fees => do
    let (view, fees) ← connectTx height tx view fees
    connectTxs height rest view fees

/-- The coin of the second pass: the whole value of the coinbase under its first script. -/
def coinbaseCoin (tx : CTransaction) (height cbValue : Int) : CUTXO where
  value := Int64.ofInt cbValue
  scriptPubKey := match tx.vout with
    | [] => ⟨[], by decide⟩
    | out :: _ => out.scriptPubKey
  height := height
  isCoinbase := true

/-- The second pass of `CheckBlock`. `CheckTransaction` has rejected a coinbase without outputs. -/
def connectCoinbase (height : Int) (tx : CTransaction) (view : CCoinsView) (fees : Int) :
    Except Reject CCoinsView := do
  checkTransaction tx
  let cbValue ← sumValues .cbValue 0 tx.vout
  let valid ← isCoinbaseValueValid cbValue (getBlockSubsidy height) fees
  if valid then pure (view.addCoin ⟨getTxID tx, 0⟩ (coinbaseCoin tx height cbValue))
  else .error (.error "coinbase value exceeds subsidy + fees")

/-- `CheckBlock`: the view after the block and the fees it collects. -/
def checkBlock (blk : CBlock) (height : Int) (view : CCoinsView) : Except Reject (CCoinsView × Int) :=
  match blk.vtx with
  | [] => .error (.error "first tx is not coinbase")
  | coinbase :: txs =>
    if coinbase.isCoinBase = false then .error (.error "first tx is not coinbase")
    else if txs.any CTransaction.isCoinBase then .error (.error "multiple coinbases")
    else if blk.vtx.length > MAX_TX_COUNT_PER_BLOCK then .error (.error "too many transactions")
    else if blk.checkMerkleRoot = false then .error (.error "merkle root mismatch")
    else do
      let (view, fees) ← connectTxs height txs view 0
      let view ← connectCoinbase height coinbase view fees
      pure (view, fees)

end cdx
