import Cdx.Transaction.Size
import Cdx.Wallet.Payment

namespace cdx

section Policy

/-- `EstimateSmartFee`: the default rate. -/
def estimateSmartFee : Int := CWallet.DEFAULT_FEE_RATE

def calculateFee (txSizeBytes : Nat) : Int :=
  let fee : Int := (txSizeBytes * estimateSmartFee.toNat % 2 ^ 64 / 1000 : Nat)
  if fee < 100 then 100 else fee

def isBelowMinFee (tx : CTransaction) (fee : Int) : Bool := decide (fee < calculateFee (serializeTransaction tx).length)

/-- A rate of one unit for a byte, as long as the product stays in the word. -/
theorem calculateFee_eq {size : Nat} (hsize : size * 1000 < 2 ^ 64) : calculateFee size = max 100 (size : Int) := by
  have hrate : estimateSmartFee.toNat = 1000 := rfl
  unfold calculateFee
  rw [hrate, Nat.mod_eq_of_lt hsize, Nat.mul_div_cancel _ (by decide)]
  simp only
  split <;> omega

/-- A fee that is at least the smallest one is high enough exactly if it covers the size. -/
theorem isBelowMinFee_eq_false_iff {tx : CTransaction} {fee : Int} (hsize : tx.size * 1000 < 2 ^ 64) (hfee : 100 ≤ fee) :
    isBelowMinFee tx fee = false ↔ (tx.size : Int) ≤ fee := by
  rw [isBelowMinFee, length_serializeTransaction, calculateFee_eq hsize, decide_eq_false_iff_not, not_lt, max_le_iff]
  exact and_iff_right hfee

end Policy

theorem mapM_eq_ok {α β ε : Type} {f : α → Except ε β} {xs : List α} {ys : List β} (hmap : xs.mapM f = .ok ys) :
    ∀ (j : Nat) (x : α), xs[j]? = some x → ∃ y, ys[j]? = some y ∧ f x = .ok y := by
  induction xs generalizing ys with
  | nil =>
    intro j x hx
    simp at hx
  | cons x xs ih =>
    rw [List.mapM_cons] at hmap
    obtain ⟨y, hy, hmap⟩ := bind_eq_ok_iff.mp hmap
    obtain ⟨ys', hys, hmap⟩ := bind_eq_ok_iff.mp hmap
    cases hmap
    intro j x' hx'
    cases j with
    | zero =>
      cases hx'
      exact ⟨y, rfl, hy⟩
    | succ j => exact ih hys j x' hx'

/-- An input with the script of a signature. -/
theorem size_signed {i : CTxIn} {kp : CKeyPair} {sig : { sig : Bytes // sig.length ≤ 72 }}
    (hscript : i.scriptSig = kp.scriptSig sig) : i.size = 77 + sig.val.length := by
  have hlength : (kp.scriptSig sig).val.length = sig.val.length + 36 := by
    simp [CKeyPair.scriptSig, kp.pubkey.property]
  have hshort := sig.property
  rw [CTxIn.size, hscript, scriptSize, hlength, varIntSize, if_pos (by omega)]
  omega

theorem size_p2pkh (value : Int64) (hash160 : Hash160) : CTxOut.size ⟨value, buildP2PKHScript hash160⟩ = 34 := by
  rw [CTxOut.size, scriptSize, length_buildP2PKHScript]
  rfl

section Size

variable [Crypto] [Secp256k1] [Cipher]

namespace CWallet

/-- The length of the signature that a key of the wallet makes for an input of a transaction. -/
def signatureLength (w : CWallet) (tx : CTransaction) (index : Nat) (s : SelectedInput) : Nat :=
  match w.signingKey s with
  | .error _ => 0
  | .ok kp => ((kp.sign (signatureHash tx index s.coin.scriptPubKey).getBytesLE).map fun sig => sig.val.length).getD 0

/-- The size of a payment once it is signed. -/
def signedSize (w : CWallet) (tx : CTransaction) (selected : List SelectedInput) : Nat :=
  9 + varIntSize selected.length + (selected.zipIdx.map fun entry => 77 + w.signatureLength tx entry.2 entry.1).sum +
    34 * tx.vout.length

theorem signatureLength_le (w : CWallet) (tx : CTransaction) (index : Nat) (s : SelectedInput) :
    w.signatureLength tx index s ≤ 72 := by
  unfold signatureLength
  cases w.signingKey s with
  | error e => exact Nat.zero_le _
  | ok kp =>
    simp only
    cases kp.sign (signatureHash tx index s.coin.scriptPubKey).getBytesLE with
    | none => exact Nat.zero_le _
    | some sig => exact sig.property

theorem signedSize_le (w : CWallet) (tx : CTransaction) (selected : List SelectedInput) :
    w.signedSize tx selected ≤ 9 + varIntSize selected.length + 149 * selected.length + 34 * tx.vout.length := by
  have hinputs : (selected.zipIdx.map fun entry => 77 + w.signatureLength tx entry.2 entry.1).sum ≤
      (selected.zipIdx.map fun entry => 77 + w.signatureLength tx entry.2 entry.1).length • 149 := by
    apply List.sum_le_card_nsmul
    intro size hsize
    obtain ⟨entry, -, rfl⟩ := List.mem_map.mp hsize
    have hshort := w.signatureLength_le tx entry.2 entry.1
    omega
  rw [List.length_map, List.length_zipIdx, smul_eq_mul] at hinputs
  unfold signedSize
  omega

theorem le_signedSize (w : CWallet) (tx : CTransaction) (selected : List SelectedInput) :
    10 + 77 * selected.length + 34 * tx.vout.length ≤ w.signedSize tx selected := by
  have hinputs : (selected.zipIdx.map fun entry => 77 + w.signatureLength tx entry.2 entry.1).length • 77 ≤
      (selected.zipIdx.map fun entry => 77 + w.signatureLength tx entry.2 entry.1).sum := by
    apply List.card_nsmul_le_sum
    intro size hsize
    obtain ⟨entry, -, rfl⟩ := List.mem_map.mp hsize
    exact Nat.le_add_right ..
  have hcount : 1 ≤ varIntSize selected.length := by
    unfold varIntSize
    repeat' split
    all_goals decide
  rw [List.length_map, List.length_zipIdx, smul_eq_mul] at hinputs
  unfold signedSize
  omega

/-- Every input of a payment is signed by the key of its coin, for the transaction without signatures. -/
theorem Assembles.map_size {w : CWallet} {view : CCoinsView} {height : Int} {toHash : Hash160} {amountBase : Int64}
    {funding : Funding} {changeOutputs : List CTxOut} {payment : Payment}
    (hassembles : w.Assembles view height toHash amountBase funding changeOutputs payment) :
    payment.tx.vin.map CTxIn.size = funding.selected.zipIdx.map fun entry =>
      77 + w.signatureLength (unsignedPayment toHash amountBase funding.selected changeOutputs) entry.2 entry.1 := by
  obtain ⟨kps, hkps, hsigned⟩ := hassembles.signed
  obtain ⟨-, -, hscripts⟩ := signInputs_eq_ok hsigned (nodup_signingOrder kps funding.selected)
  apply List.ext_getElem?
  intro j
  rw [List.getElem?_map, List.getElem?_map, List.getElem?_zipIdx]
  cases hs : funding.selected[j]? with
  | none =>
    rw [List.getElem?_eq_none_iff, ← hassembles.length_vin, ← List.getElem?_eq_none_iff] at hs
    rw [hs]
    rfl
  | some s =>
    obtain ⟨kp, hkp, hsigning⟩ := mapM_eq_ok hkps j s hs
    have hmem : (j, kp, s.coin.scriptPubKey) ∈ signingOrder kps funding.selected := by
      refine List.mem_map.mpr ⟨((kp, s.coin.scriptPubKey), j), List.mem_zipIdx_iff_getElem?.mpr ?_, rfl⟩
      simp [List.getElem?_zip_eq_some, hkp, hs]
    obtain ⟨sig, i, hsig, hi, hscript⟩ : SignedBy _ payment.tx j kp s.coin.scriptPubKey := hscripts _ hmem
    simp only [Option.map_some, Nat.zero_add]
    rw [hi, Option.map_some, size_signed hscript, signatureLength, hsigning]
    simp only [hsig]
    rfl

/-- The change of a payment that is not returned. -/
def dust (change : Int) : Int := if change < 1000 then change else 0

section Assembled

variable {w w' : CWallet} {view : CCoinsView} {height : Int} {toHash : Hash160} {amountBase : Int64} {funding : Funding}
  {draw : KeyDraw} {changeOutputs : List CTxOut} {payment : Payment} (hlocked : w.keystore.locked = false)
  (hchange : w.changeOutput funding.change draw = (.ok (some changeOutputs), w'))
  (hassembles : w'.Assembles view height toHash amountBase funding changeOutputs payment)
include hlocked hchange hassembles

theorem Assembles.size_eq :
    payment.tx.size = w'.signedSize (unsignedPayment toHash amountBase funding.selected changeOutputs) funding.selected := by
  rw [CTransaction.size, signedSize, hassembles.length_vin, hassembles.map_size, hassembles.vout_eq, unsignedPayment]
  rcases changeOutput_eq_ok hlocked hchange with ⟨-, rfl, -⟩ | ⟨-, k, rfl, -⟩
  · simp only [List.map_cons, List.map_nil, size_p2pkh, List.sum_cons, List.sum_nil, List.length_cons, List.length_nil]
    have hone : varIntSize (0 + 1) = 1 := rfl
    omega
  · simp only [List.map_cons, List.map_nil, size_p2pkh, List.sum_cons, List.sum_nil, List.length_cons, List.length_nil]
    have htwo : varIntSize (0 + 1 + 1) = 1 := rfl
    omega

/-- No payment that passes the checks is so large that its size overflows. -/
theorem Assembles.size_lt : payment.tx.size * 1000 < 2 ^ 64 := by
  obtain ⟨fee, hvalid⟩ := hassembles.validated
  obtain ⟨_, htx, -⟩ := bind_eq_ok_iff.mp hvalid
  have hins := (wellFormed_of_checkTransaction htx).vin_length
  have houts := (wellFormed_of_checkTransaction htx).vout_length
  have hsize := w'.signedSize_le (unsignedPayment toHash amountBase funding.selected changeOutputs) funding.selected
  rw [← hassembles.size_eq hlocked hchange, ← hassembles.length_vin, hassembles.sameUnsigned.2.2.1] at hsize
  have hcount : varIntSize payment.tx.vin.length ≤ 9 := by
    unfold varIntSize
    repeat' split
    all_goals omega
  rw [MAX_TX_COUNT_PER_BLOCK] at hins houts
  omega

end Assembled

end CWallet

variable [Sorting]

/-- A payment that needs at most three coins pays for its size. One whose coins alone take more bytes than it pays
    units does not: the fee is for three inputs and two outputs, whatever the number of coins, and only change that is
    not returned adds to it. In between it depends on the lengths of the signatures. -/
theorem createTransaction_minFee {w w' : CWallet} {view : CCoinsView} {height : Int} {toAddress : Bytes}
    {amountBase : Int64} {draws : Nat → KeyDraw} {payment : Payment} {coins : List SelectedInput}
    (hpaid : w.createTransaction view height toAddress amountBase draws = (.ok payment, w'))
    (hneeds : w.Needs view height (amountBase.toInt + 530) coins) :
    (coins.length ≤ 3 → isBelowMinFee payment.tx payment.fee = false) ∧
    (530 + CWallet.dust (selectedValue coins - (amountBase.toInt + 530)) < 44 + 77 * coins.length →
      isBelowMinFee payment.tx payment.fee = true) := by
  obtain ⟨hlocked, hamount, v, toHash, funding, changeOutputs, -, hfunds, hchange, hassembles⟩ :=
    CWallet.createTransaction_eq_ok hpaid
  obtain rfl := hneeds.unique (hfunds.needs hamount)
  have hfee : payment.fee = 530 + CWallet.dust funding.change :=
    hassembles.fee_eq.trans (hfunds.fee_eq hlocked hchange)
  have hleft := hfunds.change_eq
  rw [CWallet.estimateFee_approxSize] at hleft
  have hdust : 0 ≤ CWallet.dust funding.change := by
    have hnonneg := hfunds.change_nonneg
    unfold CWallet.dust
    split <;> omega
  have houts : 1 ≤ (CWallet.unsignedPayment toHash amountBase funding.selected changeOutputs).vout.length ∧
      (CWallet.unsignedPayment toHash amountBase funding.selected changeOutputs).vout.length ≤ 2 := by
    rcases CWallet.changeOutput_eq_ok hlocked hchange with ⟨-, rfl, -⟩ | ⟨-, k, rfl, -⟩ <;>
      simp [CWallet.unsignedPayment]
  have hcovered := isBelowMinFee_eq_false_iff (hassembles.size_lt hlocked hchange) (show 100 ≤ payment.fee by omega)
  rw [hassembles.size_eq hlocked hchange, hfee] at hcovered
  rw [hfee, ← hleft]
  constructor
  · intro hfew
    have hsize := w'.signedSize_le (CWallet.unsignedPayment toHash amountBase funding.selected changeOutputs) funding.selected
    rw [varIntSize, if_pos (by omega)] at hsize
    exact hcovered.mpr (by omega)
  · intro hmany
    have hsize := w'.le_signedSize (CWallet.unsignedPayment toHash amountBase funding.selected changeOutputs) funding.selected
    rw [← Bool.not_eq_false, hcovered]
    omega

end Size

section

attribute [local instance] trustingCrypto flatCurve markedCipher mergeSorting

theorem createTransaction_minFee_threeCoins : ∃ payment, payer.createTransaction
    (payerView [coinAt 1, coinAt 2, coinAt 3] 5000) 1 receiverAddress.bytes 10000 (fun _ => twoDraw) =
      (.ok payment, changedPayer) ∧
    payer.Needs (payerView [coinAt 1, coinAt 2, coinAt 3] 5000) 1 10530 (payerInputs [coinAt 1, coinAt 2, coinAt 3] 5000) ∧
    isBelowMinFee payment.tx payment.fee = false := by
  have hneeds : payer.Needs (payerView [coinAt 1, coinAt 2, coinAt 3] 5000) 1 10530
      (payerInputs [coinAt 1, coinAt 2, coinAt 3] 5000) := by
    apply CWallet.Needs.of_selectCoins (by decide)
    rw [selectCoins_payer ownCoins_threeCoins (by simp [payerInputs])]
    rfl
  exact ⟨_, createTransaction_threeCoins, hneeds,
    (createTransaction_minFee createTransaction_threeCoins hneeds).1 (by decide)⟩

/-- Four coins of 400 units pay 1070 units with a fee of 530, for 636 bytes. -/
theorem isBelowMinFee_fourCoins : ∃ payment, payer.createTransaction
    (payerView [coinAt 1, coinAt 2, coinAt 3, coinAt 4] 400) 1 receiverAddress.bytes 1070 (fun _ => oneDraw) =
      (.ok payment, payer) ∧ payment.tx.size = 636 ∧ payment.fee = 530 ∧ isBelowMinFee payment.tx payment.fee = true := by
  have hown : payer.ownCoins (payerView [coinAt 1, coinAt 2, coinAt 3, coinAt 4] 400) 1 =
      payerInputs [coinAt 1, coinAt 2, coinAt 3, coinAt 4] 400 := by
    rw [ownCoins_payer]
    rfl
  have hfund : payer.fund (payerView [coinAt 1, coinAt 2, coinAt 3, coinAt 4] 400) 1 1070 0 =
      .ok ⟨payerInputs [coinAt 1, coinAt 2, coinAt 3, coinAt 4] 400, 1600, 0⟩ := by
    unfold CWallet.fund
    simp only [selectCoins_payer hown (by simp [payerInputs])]
    rfl
  have hassemble : payer.assemble (payerView [coinAt 1, coinAt 2, coinAt 3, coinAt 4] 400) 1 sampleHash 1070
      ⟨payerInputs [coinAt 1, coinAt 2, coinAt 3, coinAt 4] 400, 1600, 0⟩ [] =
      .ok ⟨payerTx [coinAt 1, coinAt 2, coinAt 3, coinAt 4] 1070,
        getTxID (payerTx [coinAt 1, coinAt 2, coinAt 3, coinAt 4] 1070), 530⟩ := by
    unfold CWallet.assemble
    simp only [payerInputs, List.map_cons, List.map_nil, List.mapM_cons, List.mapM_nil, signingKey_payer, pure_bind]
    rfl
  have hsize : (payerTx [coinAt 1, coinAt 2, coinAt 3, coinAt 4] 1070).size = 636 := rfl
  refine ⟨_, createTransaction_payer (by decide) hfund (changeOutput_dust (by decide) _) hassemble, hsize, rfl, ?_⟩
  rw [isBelowMinFee, length_serializeTransaction, hsize]
  decide

end

end cdx
