import Cdx.Consensus.Validation
import Cdx.Wallet.Keystore

namespace cdx

/-- How a call of the wallet ends without a result: it reports an error, it throws, or it
    runs into a signed overflow. -/
inductive WalletFailure where
  | error (message : String)
  | thrown (message : String)
  | overflow
deriving DecidableEq

/-- A failed check as the wallet sees it. -/
def Reject.toWallet : Reject → WalletFailure
  | .error message => .error message
  | .overflow _ => .overflow

/-- The result of a signed 64-bit operation. -/
def signed64 (value : Int) : Except WalletFailure Int :=
  if INT64_MIN ≤ value ∧ value ≤ INT64_MAX then .ok value else .error .overflow

structure CWallet where
  keystore : CKeystore := {}
  versionByte : UInt8 := 0x1E

/-- What one `GenerateNewAddress` draws from the random source and the clock. -/
structure KeyDraw where
  bufs : List Bytes32
  iv : IV
  now : UInt64

structure SelectedInput where
  outpoint : COutPoint
  coin : CUTXO
  address : Address

/-- `std::sort` by value. Coins of one value may come out in any order. -/
class Sorting where
  sort : List SelectedInput → List SelectedInput
  sort_perm : ∀ entries, (sort entries).Perm entries
  sort_sorted : ∀ entries, (sort entries).Pairwise fun a b => a.coin.value ≤ b.coin.value

def sortByValue (entries : List SelectedInput) : List SelectedInput :=
  entries.mergeSort fun a b => decide (a.coin.value ≤ b.coin.value)

theorem pairwise_sortByValue (entries : List SelectedInput) :
    (sortByValue entries).Pairwise fun a b => a.coin.value ≤ b.coin.value := by
  refine (List.pairwise_mergeSort ?_ ?_ entries).imp fun h => decide_eq_true_eq.mp h
  · intro a b c hab hbc
    exact decide_eq_true (Int64.le_trans (decide_eq_true_eq.mp hab) (decide_eq_true_eq.mp hbc))
  · intro a b
    simpa using Int64.le_total a.coin.value b.coin.value

@[reducible]
def mergeSorting : Sorting where
  sort := sortByValue
  sort_perm entries := List.mergeSort_perm entries _
  sort_sorted := pairwise_sortByValue

/-- A transaction with its id and fee, ready to be sent. -/
structure Payment where
  tx : CTransaction
  txid : UInt256
  fee : Int

/-- The text of an address in a message. -/
def Address.text (address : Address) : String := String.ofList (address.bytes.map fun b => Char.ofNat b.toNat)

namespace CWallet

section Keys

variable [Crypto] [Secp256k1] [Cipher]

/-- `GenerateNewAddress`. What `AddKey` returns is not looked at. -/
def generateNewAddress (w : CWallet) (draw : KeyDraw) : Except String KeyPair × CWallet :=
  match generatePair w.versionByte draw.bufs with
  | .error e => (.error e, w)
  | .ok kp =>
    match w.keystore.addKey kp draw.iv draw.now with
    | (.error e, ks) => (.error e, { w with keystore := ks })
    | (.ok _, ks) => (.ok kp, { w with keystore := ks })

def importKey (w : CWallet) (kp : KeyPair) (iv : IV) (now : UInt64) : Except String Bool × CWallet :=
  if kp.address.bytes = [] then (.ok false, w)
  else
    match w.keystore.addKey kp iv now with
    | (result, ks) => (result, { w with keystore := ks })

def importWIF (w : CWallet) (wif : Bytes) (iv : IV) (now : UInt64) : Except String Bool × CWallet :=
  match wifToPrivKey wif with
  | none => (.ok false, w)
  | some (_, priv) => w.importKey (fromPrivKey priv w.versionByte) iv now

end Keys

section Select

variable [Crypto] [Sorting]

/-- The coins that pay to an address of the wallet and may be spent. -/
def ownCoins (w : CWallet) (view : CCoinsView) (height : Int) : List SelectedInput :=
  w.keystore.getAddresses.flatMap fun address =>
    match decodeAddress address.bytes with
    | none => []
    | some (v, h) =>
      if v ≠ w.versionByte then []
      else
        view.utxo.toList.filterMap fun kv =>
          if extractP2PKHHash kv.2.scriptPubKey.val = some h.val ∧ kv.2.isSpendable height = true then
            some ⟨kv.1, kv.2, address⟩
          else none

/-- The loop of `SelectCoins`: coins until their sum reaches the amount, and whether it does. -/
def takeCoins (amountNeeded : Int) : Int → List SelectedInput → Except WalletFailure (Bool × List SelectedInput)
  | _, [] => .ok (false, [])
  | total, e :: rest => do
    let total ← signed64 (total + e.coin.value.toInt)
    if total ≥ amountNeeded then .ok (true, [e])
    else do
      let (found, selected) ← takeCoins amountNeeded total rest
      .ok (found, e :: selected)

def selectCoins (w : CWallet) (view : CCoinsView) (height amountNeeded : Int) :
    Except WalletFailure (Bool × List SelectedInput) :=
  takeCoins amountNeeded 0 (Sorting.sort (w.ownCoins view height))

end Select

section Create

variable [Crypto] [Secp256k1] [Cipher] [Sorting]

def DEFAULT_FEE_RATE : Int := 1000

def estimateFee (txSizeBytes : Int) : Int :=
  let fee := txSizeBytes * DEFAULT_FEE_RATE / 1000
  if fee < 100 then 100 else fee

/-- The size that an attempt of `CreateTransaction` reckons with. -/
def approxSize (attempt : Nat) : Int :=
  10 + 3 * (32 + 4 + 110 + 4) + 2 * (8 + 25) + 4 + if attempt > 0 then 150 else 0

/-- The coins of a payment, their sum, and what is left of it. -/
structure Funding where
  selected : List SelectedInput
  inSum : Int
  change : Int

/-- The first half of an attempt of `CreateTransaction`: the coins that it spends. -/
def fund (w : CWallet) (view : CCoinsView) (height : Int) (amountBase : Int64) (attempt : Nat) :
    Except WalletFailure Funding := do
  let amountNeeded ← signed64 (amountBase.toInt + estimateFee (approxSize attempt))
  let (found, selected) ← w.selectCoins view height amountNeeded
  if !found then .error (.error ("insufficient funds (need " ++ formatValue amountNeeded ++ ")"))
  else do
    let inSum ← selected.foldlM (fun sum s => signed64 (sum + s.coin.value.toInt)) 0
    let change ← signed64 (inSum - amountNeeded)
    .ok { selected, inSum, change }

/-- The change of an attempt: nothing when it would be dust, otherwise an output to a new key.
    There is no result when the new address does not decode, and the next attempt follows. -/
def changeOutput (w : CWallet) (change : Int) (draw : KeyDraw) : Except WalletFailure (Option (List CTxOut)) × CWallet :=
  if change < 1000 then (.ok (some []), w)
  else
    match w.generateNewAddress draw with
    | (.error e, w) => (.error (.thrown e), w)
    | (.ok kp, w) =>
      (.ok ((decodeAddress kp.address.bytes).map fun decoded =>
        [{ value := Int64.ofInt change, scriptPubKey := buildP2PKHScript decoded.2 }]), w)

/-- The key of a selected coin, as `SignInput` takes it. -/
def signingKey (w : CWallet) (s : SelectedInput) : Except WalletFailure CKeyPair :=
  match w.keystore.getKey s.address with
  | .error e => .error (.thrown e)
  | .ok none => .error (.error ("missing private key for " ++ s.address.text))
  | .ok (some k) => .ok { sign := Secp256k1.sign k, pubkey := Secp256k1.getPubKeyCompressed k }

/-- `ValidateTransaction`, of a transaction that is not for a block. -/
def validateTransaction (tx : CTransaction) (view : CCoinsView) (height : Int) : Except Reject Int := do
  checkTransaction tx
  if tx.isCoinBase then .error (.error "coinbase not allowed in mempool") else checkTxInputs tx view height

/-- The second half of an attempt of `CreateTransaction`: the transaction, signed and checked. -/
def assemble (w : CWallet) (view : CCoinsView) (height : Int) (toHash : Hash160) (amountBase : Int64) (funding : Funding)
    (changeOutputs : List CTxOut) : Except WalletFailure Payment := do
  let tx : CTransaction := {
    vin := funding.selected.map fun s => { prevout := s.outpoint, scriptSig := emptyScript }
    vout := { value := amountBase, scriptPubKey := buildP2PKHScript toHash } :: changeOutputs }
  let outSum ← tx.vout.foldlM (fun sum out => signed64 (sum + out.value.toInt)) 0
  let actualFee ← signed64 (funding.inSum - outSum)
  if actualFee < 0 then .error (.error "internal: negative fee")
  else do
    let kps ← funding.selected.mapM w.signingKey
    let order := (kps.zip (funding.selected.map fun s => s.coin.scriptPubKey)).zipIdx.map fun entry =>
      (entry.2, entry.1.1, entry.1.2)
    match signInputs tx order with
    | (.error e, _) => .error (.error e)
    | (.ok (), tx) =>
      match validateTransaction tx view height with
      | .error e => .error e.toWallet
      | .ok _ => .ok { tx := tx, txid := getTxID tx, fee := actualFee }

/-- The attempts of `CreateTransaction`. -/
def attempts (w : CWallet) (view : CCoinsView) (height : Int) (toHash : Hash160) (amountBase : Int64)
    (draws : Nat → KeyDraw) (attempt : Nat) : Nat → Except WalletFailure Payment × CWallet
  | 0 => (.error (.error "could not construct transaction"), w)
  | n + 1 =>
    match w.fund view height amountBase attempt with
    | .error e => (.error e, w)
    | .ok funding =>
      match w.changeOutput funding.change (draws attempt) with
      | (.error e, w) => (.error e, w)
      | (.ok none, w) => w.attempts view height toHash amountBase draws (attempt + 1) n
      | (.ok (some changeOutputs), w) => (w.assemble view height toHash amountBase funding changeOutputs, w)

def createTransaction (w : CWallet) (view : CCoinsView) (height : Int) (toAddress : Bytes) (amountBase : Int64)
    (draws : Nat → KeyDraw) : Except WalletFailure Payment × CWallet :=
  if w.keystore.locked then (.error (.error "wallet is locked"), w)
  else
    match decodeAddress toAddress with
    | none => (.error (.error "invalid recipient address"), w)
    | some (_, toHash) =>
      if amountBase ≤ 0 then (.error (.error "amount must be positive"), w)
      else w.attempts view height toHash amountBase draws 0 8

end Create

end CWallet

end cdx
