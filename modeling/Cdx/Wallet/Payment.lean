import Cdx.Consensus.Accepted
import Cdx.Wallet.Balance
import Cdx.Wallet.Issued

namespace cdx

open Std (ExtTreeMap)

theorem signed64_eq_ok {value result : Int} (hresult : signed64 value = .ok result) :
    result = value ∧ INT64_MIN ≤ value ∧ value ≤ INT64_MAX := by
  unfold signed64 at hresult
  split at hresult
  next hrange =>
    cases hresult
    exact ⟨rfl, hrange⟩
  · cases hresult

/-- A sum of 64-bit words that does not overflow is exact. -/
theorem foldlM_signed64 {α : Type} {f : α → Int} {xs : List α} {start result : Int}
    (hsum : xs.foldlM (fun sum x => signed64 (sum + f x)) start = .ok result) : result = start + (xs.map f).sum := by
  induction xs generalizing start with
  | nil =>
    cases hsum
    simp
  | cons x xs ih =>
    rw [List.foldlM_cons] at hsum
    obtain ⟨next, hnext, hrest⟩ := bind_eq_ok_iff.mp hsum
    obtain ⟨rfl, -⟩ := signed64_eq_ok hnext
    rw [ih hrest, List.map_cons, List.sum_cons, Int.add_assoc]

/-- The loop of `SelectCoins` takes the coins in their order, and when it says so enough of them, but no more. -/
theorem takeCoins_eq_ok {amount total : Int} {entries selected : List SelectedInput} {found : Bool}
    (htake : CWallet.takeCoins amount total entries = .ok (found, selected)) :
    selected <+: entries ∧ (found = true → amount ≤ total + selectedValue selected ∧
      ∀ fewer, fewer <+: selected → fewer ≠ [] → amount ≤ total + selectedValue fewer → fewer = selected) := by
  induction entries generalizing total found selected with
  | nil =>
    cases htake
    exact ⟨List.prefix_rfl, fun hfound => absurd hfound Bool.false_ne_true⟩
  | cons e rest ih =>
    rw [CWallet.takeCoins] at htake
    obtain ⟨next, hnext, htake⟩ := bind_eq_ok_iff.mp htake
    obtain ⟨rfl, -⟩ := signed64_eq_ok hnext
    split at htake
    next henough =>
      cases htake
      refine ⟨List.cons_prefix_cons.mpr ⟨rfl, List.nil_prefix⟩, fun _ => ⟨?_, ?_⟩⟩
      · rw [selectedValue_cons, selectedValue_nil, Int.add_zero]
        exact henough
      · intro fewer hfewer hne _
        obtain ⟨first, others, rfl⟩ := List.exists_cons_of_ne_nil hne
        obtain ⟨rfl, hothers⟩ := List.cons_prefix_cons.mp hfewer
        rw [List.prefix_nil.mp hothers]
    next hmore =>
      obtain ⟨⟨found', selected'⟩, hrest, htake⟩ := bind_eq_ok_iff.mp htake
      cases htake
      obtain ⟨hleading, hvalue⟩ := ih hrest
      refine ⟨List.cons_prefix_cons.mpr ⟨rfl, hleading⟩, fun hfound => ?_⟩
      obtain ⟨henough, hshortest⟩ := hvalue hfound
      refine ⟨by rwa [selectedValue_cons, ← Int.add_assoc], ?_⟩
      intro fewer hfewer hne hreaches
      obtain ⟨first, others, rfl⟩ := List.exists_cons_of_ne_nil hne
      obtain ⟨rfl, hothers⟩ := List.cons_prefix_cons.mp hfewer
      rw [selectedValue_cons, ← Int.add_assoc] at hreaches
      rw [hshortest others hothers ?_ hreaches]
      rintro rfl
      rw [selectedValue_nil, Int.add_zero] at hreaches
      exact hmore hreaches

/-- The coins that an amount needs: the wallet's spendable coins in ascending order, up to the first with which
    they are worth as much. -/
structure CWallet.Needs [Crypto] [Sorting] (w : CWallet) (view : CCoinsView) (height amount : Int)
    (coins : List SelectedInput) : Prop where
  ascending : coins <+: Sorting.sort (w.ownCoins view height)
  enough : amount ≤ selectedValue coins
  shortest : ∀ fewer, fewer <+: coins → amount ≤ selectedValue fewer → fewer = coins

namespace CWallet.Needs

variable [Crypto] [Sorting] {w : CWallet} {view : CCoinsView} {height amount : Int}

theorem of_selectCoins (hamount : 0 < amount) {selected : List SelectedInput}
    (hselect : w.selectCoins view height amount = .ok (true, selected)) : w.Needs view height amount selected := by
  obtain ⟨hleading, hfound⟩ := takeCoins_eq_ok hselect
  obtain ⟨henough, hshortest⟩ := hfound rfl
  rw [Int.zero_add] at henough
  refine ⟨hleading, henough, fun fewer hfewer hreaches => hshortest fewer hfewer ?_ (by rwa [Int.zero_add])⟩
  rintro rfl
  rw [selectedValue_nil] at hreaches
  omega

theorem unique {coins coins' : List SelectedInput} (hneeds : w.Needs view height amount coins)
    (hneeds' : w.Needs view height amount coins') : coins = coins' := by
  rcases List.prefix_or_prefix_of_prefix hneeds.ascending hneeds'.ascending with hle | hle
  · exact hneeds'.shortest coins hle hneeds.enough
  · exact (hneeds.shortest coins' hle hneeds'.enough).symm

end CWallet.Needs

/-- What the coins of a list of inputs are worth depends on the outpoints only. -/
theorem inputValue_eq_selectedValue {view : CCoinsView} {ins : List CTxIn} {selected : List SelectedInput}
    (hprevouts : ins.map CTxIn.prevout = selected.map SelectedInput.outpoint)
    (hcoins : ∀ s ∈ selected, view.getCoin s.outpoint = some s.coin) : inputValue view ins = selectedValue selected := by
  have hvalues : ins.map (fun i => ((view.getCoin i.prevout).map fun coin => coin.value.toInt).getD 0) =
      (ins.map CTxIn.prevout).map fun out => ((view.getCoin out).map fun coin => coin.value.toInt).getD 0 := by
    rw [List.map_map]
    rfl
  rw [inputValue, selectedValue, hvalues, hprevouts, List.map_map]
  congr 1
  apply List.map_congr_left
  intro s hs
  simp [hcoins s hs]

theorem SameUnsigned.trans {tx tx' tx'' : CTransaction} (hfirst : SameUnsigned tx tx') (hsecond : SameUnsigned tx' tx'') :
    SameUnsigned tx tx'' :=
  ⟨hfirst.1.trans hsecond.1, hfirst.2.1.trans hsecond.2.1, hfirst.2.2.1.trans hsecond.2.2.1, hfirst.2.2.2.trans hsecond.2.2.2⟩

theorem SameUnsigned.map_prevout {tx tx' : CTransaction} (hsame : SameUnsigned tx tx') :
    tx'.vin.map CTxIn.prevout = tx.vin.map CTxIn.prevout := by
  have hprevouts : ∀ vin : List CTxIn, vin.map CTxIn.prevout = (vin.map CTxIn.unsigned).map Prod.fst := by
    intro vin
    rw [List.map_map]
    rfl
  rw [hprevouts, hprevouts, hsame.2.1]

section Signed

variable [Crypto]

theorem SameUnsigned.signatureHash_eq {tx tx' : CTransaction} (hsame : SameUnsigned tx tx') (inputIndex : Nat)
    (scriptPubKey : Script) : signatureHash tx' inputIndex scriptPubKey = signatureHash tx inputIndex scriptPubKey := by
  rw [cdx.signatureHash_eq, cdx.signatureHash_eq, hsame.signaturePreimage_eq]

/-- The input has the script of a signature that the key made for the transaction. -/
def SignedBy (tx signed : CTransaction) (inputIndex : Nat) (kp : CKeyPair) (scriptPubKey : Script) : Prop :=
  ∃ sig i, kp.sign (signatureHash tx inputIndex scriptPubKey).getBytesLE = some sig ∧
    signed.vin[inputIndex]? = some i ∧ i.scriptSig = kp.scriptSig sig

theorem signInput_signedBy {tx tx' : CTransaction} {inputIndex : Nat} {kp : CKeyPair} {scriptPubKey : Script}
    (hsign : signInput tx inputIndex kp scriptPubKey = .ok tx') : SignedBy tx tx' inputIndex kp scriptPubKey := by
  unfold signInput at hsign
  split at hsign
  · cases hsign
  next hindex =>
    split at hsign
    · cases hsign
    next sig hsig =>
      cases hsign
      obtain ⟨i, hi⟩ : ∃ i, tx.vin[inputIndex]? = some i := ⟨_, List.getElem?_eq_getElem (not_le.mp hindex)⟩
      refine ⟨sig, { i with scriptSig := kp.scriptSig sig }, hsig, ?_, rfl⟩
      simp [hi]

/-- Signing inputs one after another, each of them once, signs every one of them for the transaction as it was. -/
theorem signInputs_eq_ok {order : List (Nat × CKeyPair × Script)} {tx tx' : CTransaction}
    (hsign : signInputs tx order = (.ok (), tx')) (horder : (order.map Prod.fst).Nodup) :
    SameUnsigned tx tx' ∧ (∀ j ∉ order.map Prod.fst, tx'.vin[j]? = tx.vin[j]?) ∧
      ∀ entry ∈ order, SignedBy tx tx' entry.1 entry.2.1 entry.2.2 := by
  induction order generalizing tx with
  | nil =>
    cases hsign
    exact ⟨⟨rfl, rfl, rfl, rfl⟩, fun _ _ => rfl, List.forall_mem_nil _⟩
  | cons entry rest ih =>
    obtain ⟨inputIndex, kp, scriptPubKey⟩ := entry
    rw [List.map_cons, List.nodup_cons] at horder
    rw [signInputs] at hsign
    cases hfirst : signInput tx inputIndex kp scriptPubKey with
    | error e =>
      rw [hfirst] at hsign
      cases hsign
    | ok mid =>
      rw [hfirst] at hsign
      obtain ⟨hsame, hframe⟩ := signInput_eq_ok hfirst
      obtain ⟨hsame', hframe', hsigned⟩ := ih hsign horder.2
      refine ⟨hsame.trans hsame', ?_, List.forall_mem_cons.mpr ⟨?_, ?_⟩⟩
      · intro j hj
        rw [List.map_cons, List.mem_cons, not_or] at hj
        rw [hframe' j hj.2, hframe j hj.1]
      · obtain ⟨sig, i, hsig, hi, hscript⟩ := signInput_signedBy hfirst
        exact ⟨sig, i, hsig, (hframe' inputIndex horder.1).trans hi, hscript⟩
      · intro entry hentry
        obtain ⟨sig, i, hsig, hi, hscript⟩ := hsigned entry hentry
        rw [hsame.signatureHash_eq] at hsig
        exact ⟨sig, i, hsig, hi, hscript⟩

end Signed

section Paid

variable [Crypto] [Secp256k1] [Cipher] [Sorting]

/-- The keystore, unlocked, has an entry for the address that seals the key. -/
def CKeystore.Stores (ks : CKeystore) (address : Address) (k : PrivKey) : Prop :=
  ks.locked = false ∧ ∃ entry : EncryptedKeyEntry, ks.keys[address]? = some entry ∧ entry.Seals ks.kek k

omit [Crypto] [Secp256k1] [Sorting] in
/-- The key is had back wherever AES decrypts what it encrypted. -/
theorem CKeystore.Stores.getKey_eq {passwords : List Bytes} (haes : AesGcm passwords) {ks : CKeystore} {address : Address}
    {k : PrivKey} (hstores : ks.Stores address k) : ks.getKey address = .ok (some k) := by
  obtain ⟨hlocked, entry, hentry, hseals⟩ := hstores
  exact (getKey_eq_some_iff hlocked address k).mpr ⟨entry, hentry, haes.decrypt_of_seals hseals⟩

omit [Crypto] [Secp256k1] [Sorting] in
/-- An unlocked keystore stores the key that it is given. -/
theorem CKeystore.stores_of_addKey {ks ks' : CKeystore} {kp : KeyPair} {k : PrivKey} {iv : IV} {now : UInt64} {stored : Bool}
    (hlocked : ks.locked = false) (hkey : kp.key = some k) (hadd : ks.addKey kp iv now = (.ok stored, ks')) :
    ks'.Stores kp.address k := by
  rw [addKey, if_neg (by rw [hlocked]; exact Bool.false_ne_true)] at hadd
  cases hentry : encryptEntry ks.kek kp.address (getPrivKey kp.key) iv now with
  | error e =>
    rw [hentry] at hadd
    cases hadd
  | ok entry =>
    rw [hentry] at hadd
    cases hadd
    refine ⟨hlocked, entry, ?_, iv, now, ?_⟩
    · rw [orderedMap.lookup_insert, if_pos rfl]
    · rw [(encryptEntry_eq_ok hentry).1, ← hkey]
      exact hentry

namespace CWallet

/-- What the first half of an attempt finds. -/
structure Funds (w : CWallet) (view : CCoinsView) (height : Int) (amountBase : Int64) (attempt : Nat)
    (funding : Funding) : Prop where
  selects : w.selectCoins view height (amountBase.toInt + estimateFee (approxSize attempt)) = .ok (true, funding.selected)
  own : ∀ s ∈ funding.selected, s ∈ w.ownCoins view height
  inSum_eq : funding.inSum = selectedValue funding.selected
  change_eq : funding.change = selectedValue funding.selected - (amountBase.toInt + estimateFee (approxSize attempt))
  change_nonneg : 0 ≤ funding.change
  change_le : funding.change ≤ INT64_MAX

omit [Secp256k1] [Cipher] in
theorem fund_eq_ok {w : CWallet} {view : CCoinsView} {height : Int} {amountBase : Int64} {attempt : Nat} {funding : Funding}
    (hfund : w.fund view height amountBase attempt = .ok funding) : w.Funds view height amountBase attempt funding := by
  obtain ⟨needed, hneeded, hfund⟩ := bind_eq_ok_iff.mp hfund
  obtain ⟨rfl, -⟩ := signed64_eq_ok hneeded
  obtain ⟨⟨found, selected⟩, hselect, hfund⟩ := bind_eq_ok_iff.mp hfund
  cases found with
  | false => cases hfund
  | true =>
    obtain ⟨inSum, hsum, hfund⟩ := bind_eq_ok_iff.mp hfund
    obtain ⟨change, hchange, hfund⟩ := bind_eq_ok_iff.mp hfund
    cases hfund
    have hinSum := foldlM_signed64 hsum
    rw [Int.zero_add] at hinSum
    obtain ⟨rfl, -, hle⟩ := signed64_eq_ok hchange
    obtain ⟨hleading, henough⟩ := takeCoins_eq_ok hselect
    have hvalue := (henough rfl).1
    rw [Int.zero_add] at hvalue
    refine ⟨hselect, ?_, hinSum, congrArg (· - _) hinSum, ?_, hle⟩
    · exact fun s hs => (Sorting.sort_perm _).mem_iff.mp (hleading.subset hs)
    · rw [hinSum]
      exact Int.sub_nonneg.mpr hvalue

omit [Sorting] in
/-- The change of an attempt that goes on: too little for an output, or an output to a key that is stored now. -/
theorem changeOutput_eq_ok {w w' : CWallet} {change : Int} {draw : KeyDraw} {changeOutputs : List CTxOut}
    (hlocked : w.keystore.locked = false) (hchange : w.changeOutput change draw = (.ok (some changeOutputs), w')) :
    (change < 1000 ∧ changeOutputs = [] ∧ w' = w) ∨
    (1000 ≤ change ∧ ∃ k : PrivKey, changeOutputs = [⟨Int64.ofInt change, buildP2PKHScript k.hash160⟩] ∧
      w'.keystore.Stores (k.pair w.versionByte).address k) := by
  unfold changeOutput at hchange
  split at hchange
  next hdust =>
    cases hchange
    exact Or.inl ⟨hdust, rfl, rfl⟩
  next hlarge =>
    refine Or.inr ⟨not_lt.mp hlarge, ?_⟩
    rcases hgenerate : w.generateNewAddress draw with ⟨e | kp, w''⟩
    · rw [hgenerate] at hchange
      cases hchange
    · obtain ⟨k, rfl, stored, ks, hadd, rfl⟩ := generateNewAddress_eq_ok hgenerate
      obtain ⟨k', hk', hdecoded⟩ := decodeAddress_of_generateNewAddress hgenerate
      cases hk'
      simp only [hgenerate, hdecoded, Option.map_some, Prod.mk.injEq, Except.ok.injEq, Option.some.injEq] at hchange
      obtain ⟨rfl, rfl⟩ := hchange
      exact ⟨k, rfl, CKeystore.stores_of_addKey hlocked rfl hadd⟩

/-- The transaction of a payment before its inputs are signed. -/
def unsignedPayment (toHash : Hash160) (amountBase : Int64) (selected : List SelectedInput) (changeOutputs : List CTxOut) :
    CTransaction where
  vin := selected.map fun s => { prevout := s.outpoint, scriptSig := emptyScript }
  vout := { value := amountBase, scriptPubKey := buildP2PKHScript toHash } :: changeOutputs

/-- The inputs of a payment with the keys that sign them. -/
def signingOrder (kps : List CKeyPair) (selected : List SelectedInput) : List (Nat × CKeyPair × Script) :=
  (kps.zip (selected.map fun s => s.coin.scriptPubKey)).zipIdx.map fun entry => (entry.2, entry.1.1, entry.1.2)

/-- What the second half of an attempt has done. -/
structure Assembles (w : CWallet) (view : CCoinsView) (height : Int) (toHash : Hash160) (amountBase : Int64) (funding : Funding)
    (changeOutputs : List CTxOut) (payment : Payment) : Prop where
  fee_eq : payment.fee = funding.inSum - outputValue (unsignedPayment toHash amountBase funding.selected changeOutputs).vout
  signed : ∃ kps, funding.selected.mapM w.signingKey = .ok kps ∧
    signInputs (unsignedPayment toHash amountBase funding.selected changeOutputs) (signingOrder kps funding.selected) =
      (.ok (), payment.tx)
  validated : ∃ fee, validateTransaction payment.tx view height = .ok fee
  txid_eq : payment.txid = getTxID payment.tx

omit [Sorting] in
theorem assemble_eq_ok {w : CWallet} {view : CCoinsView} {height : Int} {toHash : Hash160} {amountBase : Int64}
    {funding : Funding} {changeOutputs : List CTxOut} {payment : Payment}
    (hassemble : w.assemble view height toHash amountBase funding changeOutputs = .ok payment) :
    w.Assembles view height toHash amountBase funding changeOutputs payment := by
  obtain ⟨outSum, hout, hassemble⟩ := bind_eq_ok_iff.mp hassemble
  obtain ⟨fee, hfee, hassemble⟩ := bind_eq_ok_iff.mp hassemble
  have houtSum := foldlM_signed64 hout
  rw [Int.zero_add] at houtSum
  obtain ⟨rfl, -⟩ := signed64_eq_ok hfee
  split at hassemble
  · cases hassemble
  · obtain ⟨kps, hkps, hassemble⟩ := bind_eq_ok_iff.mp hassemble
    simp only at hassemble
    split at hassemble
    · cases hassemble
    next tx hsigned =>
      split at hassemble
      · cases hassemble
      next vfee hvalid =>
        cases hassemble
        exact ⟨congrArg (funding.inSum - ·) houtSum, ⟨kps, hkps, hsigned⟩, ⟨vfee, hvalid⟩, rfl⟩

/-- A payment that succeeds: what the wallet and the view were like, and how its only attempt went. -/
theorem createTransaction_eq_ok {w w' : CWallet} {view : CCoinsView} {height : Int} {toAddress : Bytes} {amountBase : Int64}
    {draws : Nat → KeyDraw} {payment : Payment}
    (hpaid : w.createTransaction view height toAddress amountBase draws = (.ok payment, w')) :
    w.keystore.locked = false ∧ 0 < amountBase ∧ ∃ v toHash funding changeOutputs,
      decodeAddress toAddress = some (v, toHash) ∧ w.Funds view height amountBase 0 funding ∧
      w.changeOutput funding.change (draws 0) = (.ok (some changeOutputs), w') ∧
      w'.Assembles view height toHash amountBase funding changeOutputs payment := by
  unfold createTransaction at hpaid
  split at hpaid
  · cases hpaid
  next hlocked =>
    split at hpaid
    · cases hpaid
    next v toHash hdecode =>
      split at hpaid
      · cases hpaid
      next hamount =>
        refine ⟨Bool.eq_false_of_not_eq_true hlocked, Int64.not_le.mp hamount, v, toHash, ?_⟩
        rw [attempts] at hpaid
        split at hpaid
        · cases hpaid
        next funding hfund =>
          have hsome := (w.changeOutput_spec funding.change (draws 0)).1
          split at hpaid
          · cases hpaid
          next hnone =>
            rw [hnone] at hsome
            exact absurd rfl hsome
          next changeOutputs w'' hchange =>
            simp only [Prod.mk.injEq] at hpaid
            obtain ⟨hassemble, rfl⟩ := hpaid
            exact ⟨funding, changeOutputs, hdecode, fund_eq_ok hfund, hchange, assemble_eq_ok hassemble⟩

omit [Crypto] [Secp256k1] [Cipher] [Sorting] in
theorem nodup_signingOrder (kps : List CKeyPair) (selected : List SelectedInput) :
    ((signingOrder kps selected).map Prod.fst).Nodup := by
  have hindices : (signingOrder kps selected).map Prod.fst =
      (kps.zip (selected.map fun s => s.coin.scriptPubKey)).zipIdx.map Prod.snd := by
    rw [signingOrder, List.map_map]
    rfl
  rw [hindices, List.zipIdx_map_snd]
  exact List.nodup_range'

section Assembled

variable {w : CWallet} {view : CCoinsView} {height : Int} {toHash : Hash160} {amountBase : Int64} {funding : Funding}
  {changeOutputs : List CTxOut} {payment : Payment}
  (hassembles : w.Assembles view height toHash amountBase funding changeOutputs payment)
include hassembles

omit [Sorting] in
/-- Signing changes the scripts of the inputs only. -/
theorem Assembles.sameUnsigned :
    SameUnsigned (unsignedPayment toHash amountBase funding.selected changeOutputs) payment.tx := by
  obtain ⟨kps, -, hsigned⟩ := hassembles.signed
  exact (signInputs_eq_ok hsigned (nodup_signingOrder kps funding.selected)).1

omit [Sorting] in
theorem Assembles.vout_eq :
    payment.tx.vout = { value := amountBase, scriptPubKey := buildP2PKHScript toHash } :: changeOutputs :=
  hassembles.sameUnsigned.2.2.1.symm

omit [Sorting] in
theorem Assembles.map_prevout : payment.tx.vin.map CTxIn.prevout = funding.selected.map SelectedInput.outpoint := by
  rw [hassembles.sameUnsigned.map_prevout, unsignedPayment, List.map_map]
  rfl

omit [Sorting] in
theorem Assembles.length_vin : payment.tx.vin.length = funding.selected.length := by
  simpa using congrArg List.length hassembles.map_prevout

omit [Sorting] in
/-- The validation of the payment finds the fee that the wallet reckoned. -/
theorem Assembles.checked (hsum : funding.inSum = selectedValue funding.selected)
    (hcoins : ∀ s ∈ funding.selected, view.getCoin s.outpoint = some s.coin) :
    checkTransaction payment.tx = .ok () ∧ checkTxInputs payment.tx view height = .ok payment.fee ∧
      inputValue view payment.tx.vin = outputValue payment.tx.vout + payment.fee := by
  obtain ⟨fee, hvalid⟩ := hassembles.validated
  obtain ⟨_, htx, hvalid⟩ := bind_eq_ok_iff.mp hvalid
  have hvalue : inputValue view payment.tx.vin = selectedValue funding.selected :=
    inputValue_eq_selectedValue hassembles.map_prevout hcoins
  have hfee := hassembles.fee_eq
  rw [hsum, ← hvalue, hassembles.sameUnsigned.2.2.1] at hfee
  split at hvalid
  · cases hvalid
  · have hsame : fee = payment.fee := (checkTxInputs_eq_ok hvalid).2.2.2.trans hfee.symm
    refine ⟨htx, hsame ▸ hvalid, ?_⟩
    omega

end Assembled

omit [Crypto] [Secp256k1] [Cipher] [Sorting] in
/-- The fee that every payment reckons with. -/
theorem estimateFee_approxSize : estimateFee (approxSize 0) = 530 := by decide

omit [Secp256k1] [Cipher] in
theorem Funds.coin {w : CWallet} {view : CCoinsView} {height : Int} {amountBase : Int64} {attempt : Nat} {funding : Funding}
    (hfunds : w.Funds view height amountBase attempt funding) {s : SelectedInput} (hs : s ∈ funding.selected) :
    view.getCoin s.outpoint = some s.coin := (mem_ownCoins (hfunds.own s hs)).2.1

omit [Secp256k1] [Cipher] in
theorem Funds.toInt_change {w : CWallet} {view : CCoinsView} {height : Int} {amountBase : Int64} {attempt : Nat}
    {funding : Funding} (hfunds : w.Funds view height amountBase attempt funding) :
    (Int64.ofInt funding.change).toInt = funding.change := by
  have hlow := hfunds.change_nonneg
  have hhigh := hfunds.change_le
  rw [INT64_MAX_eq] at hhigh
  exact Int64.toInt_ofInt_of_le (by omega) (by omega)

omit [Secp256k1] [Cipher] in
/-- The coins of a payment are those that the amount and the fee need. -/
theorem Funds.needs {w : CWallet} {view : CCoinsView} {height : Int} {amountBase : Int64} {funding : Funding}
    (hfunds : w.Funds view height amountBase 0 funding) (hamount : 0 < amountBase) :
    w.Needs view height (amountBase.toInt + 530) funding.selected := by
  have hselects := hfunds.selects
  have hpositive := Int64.lt_iff_toInt_lt.mp hamount
  rw [estimateFee_approxSize] at hselects
  rw [Int64.toInt_zero] at hpositive
  exact Needs.of_selectCoins (by omega) hselects

/-- The output is a coin of the view that pays to an address of the wallet and may be spent. -/
def OwnsCoin (w : CWallet) (view : CCoinsView) (height : Int) (out : COutPoint) : Prop :=
  ∃ coin address h, view.getCoin out = some coin ∧ coin.isSpendable height = true ∧ address ∈ w.keystore.getAddresses ∧
    w.ownHash address = some h ∧ extractP2PKHHash coin.scriptPubKey.val = some h.val

end CWallet

/-- The accounts of a payment by a wallet, which it leaves as `w'`. -/
structure Payment.Accounts (payment : Payment) (w w' : CWallet) (view : CCoinsView) (height : Int) (toHash : Hash160)
    (amountBase : Int64) : Prop where
  recipient : payment.tx.vout[0]? = some { value := amountBase, scriptPubKey := buildP2PKHScript toHash }
  outputs_le : payment.tx.vout.length ≤ 2
  change : ∀ out ∈ payment.tx.vout.tail, 1000 ≤ out.value.toInt ∧ ∃ k : PrivKey,
    out.scriptPubKey = buildP2PKHScript k.hash160 ∧ w'.keystore.Stores (k.pair w.versionByte).address k ∧
    ∀ passwords, AesGcm passwords → w'.keystore.getKey (k.pair w.versionByte).address = .ok (some k)
  inputs_nodup : (payment.tx.vin.map CTxIn.prevout).Nodup
  inputs_own : ∀ i ∈ payment.tx.vin, w.OwnsCoin view height i.prevout
  balanced : inputValue view payment.tx.vin = outputValue payment.tx.vout + payment.fee
  fee_ge : 530 ≤ payment.fee
  wellFormed : checkTransaction payment.tx = .ok ()
  inputs_checked : checkTxInputs payment.tx view height = .ok payment.fee
  txid_eq : payment.txid = getTxID payment.tx

/-- What the change of a payment does to its outputs. -/
theorem CWallet.Funds.fee_eq {w w' : CWallet} {view : CCoinsView} {height : Int} {toHash : Hash160} {amountBase : Int64}
    {funding : Funding} {draw : KeyDraw} {changeOutputs : List CTxOut} (hlocked : w.keystore.locked = false)
    (hfunds : w.Funds view height amountBase 0 funding)
    (hchange : w.changeOutput funding.change draw = (.ok (some changeOutputs), w')) :
    funding.inSum - outputValue (unsignedPayment toHash amountBase funding.selected changeOutputs).vout =
      530 + if funding.change < 1000 then funding.change else 0 := by
  have hsum := hfunds.inSum_eq
  have hleft := hfunds.change_eq
  rw [estimateFee_approxSize] at hleft
  rw [unsignedPayment, outputValue_cons]
  rcases changeOutput_eq_ok hlocked hchange with ⟨hdust, rfl, -⟩ | ⟨hlarge, k, rfl, -⟩
  · rw [if_pos hdust]
    simp only [outputValue, List.map_nil, List.sum_nil]
    omega
  · rw [if_neg (not_lt.mpr hlarge), outputValue_cons]
    simp only [outputValue, List.map_nil, List.sum_nil, hfunds.toInt_change]
    omega

/-- The checks that a payment has passed, and its fee. -/
theorem CWallet.createTransaction_checked {w w' : CWallet} {view : CCoinsView} {height : Int} {toAddress : Bytes}
    {amountBase : Int64} {draws : Nat → KeyDraw} {payment : Payment}
    (hpaid : w.createTransaction view height toAddress amountBase draws = (.ok payment, w')) :
    checkTransaction payment.tx = .ok () ∧ checkTxInputs payment.tx view height = .ok payment.fee ∧
      inputValue view payment.tx.vin = outputValue payment.tx.vout + payment.fee ∧ 530 ≤ payment.fee ∧
      payment.txid = getTxID payment.tx := by
  obtain ⟨hlocked, -, v, toHash, funding, changeOutputs, -, hfunds, hchange, hassembles⟩ := createTransaction_eq_ok hpaid
  obtain ⟨htx, hinputs, hbalanced⟩ := hassembles.checked hfunds.inSum_eq fun s hs => hfunds.coin hs
  refine ⟨htx, hinputs, hbalanced, ?_, hassembles.txid_eq⟩
  have hnonneg := hfunds.change_nonneg
  rw [hassembles.fee_eq, hfunds.fee_eq hlocked hchange]
  split <;> omega

/-- The accounts of every payment that succeeds are in order. -/
theorem createTransaction_accounts {w w' : CWallet} {view : CCoinsView} {height : Int} {toAddress : Bytes}
    {amountBase : Int64} {draws : Nat → KeyDraw} {payment : Payment}
    (hpaid : w.createTransaction view height toAddress amountBase draws = (.ok payment, w')) :
    ∃ v toHash, decodeAddress toAddress = some (v, toHash) ∧ payment.Accounts w w' view height toHash amountBase := by
  obtain ⟨hlocked, -, v, toHash, funding, changeOutputs, hdecode, hfunds, hchange, hassembles⟩ :=
    CWallet.createTransaction_eq_ok hpaid
  obtain ⟨htx, hinputs, hbalanced, hfee, htxid⟩ := CWallet.createTransaction_checked hpaid
  have hcases := CWallet.changeOutput_eq_ok hlocked hchange
  have hvout := hassembles.vout_eq
  refine ⟨v, toHash, hdecode, ?_, ?_, ?_, (wellFormed_of_checkTransaction htx).inputs_nodup, ?_, hbalanced, hfee, htx,
    hinputs, htxid⟩
  · rw [hvout]
    rfl
  · rw [hvout]
    rcases hcases with ⟨-, rfl, -⟩ | ⟨-, k, rfl, -⟩ <;> simp
  · rw [hvout, List.tail_cons]
    rcases hcases with ⟨-, rfl, -⟩ | ⟨hlarge, k, rfl, hstores⟩
    · exact List.forall_mem_nil _
    · refine List.forall_mem_singleton.mpr ⟨?_, k, rfl, hstores, fun _ haes => hstores.getKey_eq haes⟩
      rwa [hfunds.toInt_change]
  · intro i hi
    have hmem : i.prevout ∈ funding.selected.map SelectedInput.outpoint := by
      rw [← hassembles.map_prevout]
      exact List.mem_map_of_mem hi
    obtain ⟨s, hs, hprevout⟩ := List.mem_map.mp hmem
    obtain ⟨haddress, hcoin, hspendable, h, hown, hhash⟩ := mem_ownCoins (hfunds.own s hs)
    exact ⟨s.coin, s.address, h, hprevout ▸ hcoin, hspendable, haddress, hown, hhash⟩

end Paid

section

/-- The last twenty bytes of the data. -/
def endHash (data : Bytes) : Bytes := (List.replicate 20 0 ++ data).drop data.length

theorem length_endHash (data : Bytes) : (endHash data).length = 20 := by
  rw [endHash, List.length_drop, List.length_append, List.length_replicate, Nat.add_sub_cancel]

/-- SHA-256 with the end of a public key for its hash, and with a curve on which every signature verifies. -/
@[reducible]
def trustingCrypto : Crypto where
  sha256 := sha256Full
  sha256_length := length_sha256Full
  hash160 := endHash
  hash160_length := length_endHash
  verifySignature _ _ _ := true

theorem length_flatSignature : (List.replicate 71 (0 : UInt8)).length ≤ 72 := by decide

/-- A curve whose public keys are the private ones, and whose signatures are all the same. -/
@[reducible]
def flatCurve : Secp256k1 where
  getPubKeyCompressed k := ⟨2 :: k.val, length_plainPubKey k⟩
  sign _ _ := some ⟨List.replicate 71 0, length_flatSignature⟩

attribute [local instance] trustingCrypto flatCurve markedCipher mergeSorting

/-- An unlocked wallet with one key. -/
def payer : CWallet where
  keystore := ((({} : CKeystore).unlock (ascii "alpha") (markedTag 7)).2.addKey (oneKey.pair 0x1E) zeroIV 1).2

def payerAddress : Address := hash160ToAddress oneKey.hash160 0x1E

def payerEntry : EncryptedKeyEntry where
  address := payerAddress
  ciphertext := toVector thirtyTwo_lt (getPrivKey (some oneKey))
  iv := toVector twelve_lt zeroIV
  tag := toVector sixteen_lt (markedTag 0)
  created := 1

def payerPair : CKeyPair where
  sign := Secp256k1.sign oneKey
  pubkey := Secp256k1.getPubKeyCompressed oneKey

def payerCoin (value : Int64) : CUTXO where
  value := value
  scriptPubKey := buildP2PKHScript oneKey.hash160
  height := 1
  isCoinbase := false

def coinAt (n : UInt64) : COutPoint := ⟨UInt256.ofWord n, 0⟩

/-- A view with some coins of the wallet. -/
def payerView (outs : List COutPoint) (value : Int64) : CCoinsView :=
  outs.foldl (fun view out => view.addCoin out (payerCoin value)) CCoinsView.empty

def payerInputs (outs : List COutPoint) (value : Int64) : List SelectedInput :=
  outs.map fun out => ⟨out, payerCoin value, payerAddress⟩

def receiverAddress : Address := hash160ToAddress sampleHash 0x1E

/-- A signed transaction of the wallet, without change. -/
def payerTx (outs : List COutPoint) (amount : Int64) : CTransaction where
  vin := outs.map fun out =>
    { prevout := out, scriptSig := payerPair.scriptSig ⟨List.replicate 71 0, length_flatSignature⟩ }
  vout := [{ value := amount, scriptPubKey := buildP2PKHScript sampleHash }]

theorem keys_payer : payer.keystore.keys = (∅ : ExtTreeMap Address EncryptedKeyEntry).insert payerAddress payerEntry := rfl

theorem ownCoins_payer (view : CCoinsView) (height : Int) :
    payer.ownCoins view height = (payingTo oneKey.hash160 (·.isSpendable height) view.utxo.toList).map
      fun kv => ⟨kv.1, kv.2, payerAddress⟩ := by
  rw [ownCoins_eq, CKeystore.getAddresses, keys_payer, orderedMap.toList_insert_empty, List.map_singleton,
    List.flatMap_singleton, CWallet.ownHash, payerAddress, decodeAddress_hash160ToAddress, Option.bind_some]
  rfl

theorem selectCoins_payer {view : CCoinsView} {entries : List SelectedInput} (hown : payer.ownCoins view 1 = entries)
    (hsorted : entries.Pairwise fun a b => decide (a.coin.value ≤ b.coin.value) = true) (amountNeeded : Int) :
    payer.selectCoins view 1 amountNeeded = CWallet.takeCoins amountNeeded 0 entries := by
  have hsort : Sorting.sort entries = entries := List.mergeSort_of_pairwise hsorted
  unfold CWallet.selectCoins
  rw [hown, hsort]

theorem signingKey_payer (outpoint : COutPoint) (coin : CUTXO) :
    payer.signingKey ⟨outpoint, coin, payerAddress⟩ = .ok payerPair := by
  have hkey : payer.keystore.getKey payerAddress = .ok (some oneKey) := by
    rw [CKeystore.getKey_eq_some_iff rfl, keys_payer]
    exact ⟨payerEntry, by rw [orderedMap.lookup_insert, if_pos rfl], rfl⟩
  rw [CWallet.signingKey, hkey]
  rfl

/-- A payment from its halves and its change. -/
theorem createTransaction_payer {view : CCoinsView} {amount : Int64} {funding : CWallet.Funding} {payment : Payment}
    {changeOutputs : List CTxOut} {w' : CWallet} {draws : Nat → KeyDraw} (hamount : ¬amount ≤ 0)
    (hfund : payer.fund view 1 amount 0 = .ok funding)
    (hchange : payer.changeOutput funding.change (draws 0) = (.ok (some changeOutputs), w'))
    (hassemble : w'.assemble view 1 sampleHash amount funding changeOutputs = .ok payment) :
    payer.createTransaction view 1 receiverAddress.bytes amount draws = (.ok payment, w') := by
  have hunlocked : ¬payer.keystore.locked = true := Bool.false_ne_true
  rw [CWallet.createTransaction, if_neg hunlocked, receiverAddress, decodeAddress_hash160ToAddress]
  simp only
  rw [if_neg hamount, CWallet.attempts, hfund]
  simp only
  rw [hchange]
  simp only
  rw [hassemble]

theorem changeOutput_dust {change : Int} (hdust : change < 1000) (draw : KeyDraw) :
    payer.changeOutput change draw = (.ok (some []), payer) := by
  rw [CWallet.changeOutput, if_pos hdust]

theorem isPrivKey_two : isPrivKey (List.replicate 31 0 ++ [2]) = true := by decide +kernel

def twoKey : PrivKey := ⟨List.replicate 31 0 ++ [2], isPrivKey_two⟩

/-- The draw that gives the key of the change. -/
def twoDraw : KeyDraw := ⟨[getPrivKey (some twoKey)], zeroIV, 2⟩

/-- The wallet after it has made the key of the change. -/
def changedPayer : CWallet where
  keystore := (payer.keystore.addKey (twoKey.pair 0x1E) zeroIV 2).2

theorem changeOutput_payer : payer.changeOutput 4470 twoDraw =
    (.ok (some [{ value := 4470, scriptPubKey := buildP2PKHScript twoKey.hash160 }]), changedPayer) := by
  have hgenerate : payer.generateNewAddress twoDraw = (.ok (twoKey.pair 0x1E), changedPayer) := rfl
  have hdecode : decodeAddress (twoKey.pair 0x1E).address.bytes = some (0x1E, twoKey.hash160) :=
    decodeAddress_hash160ToAddress twoKey.hash160 0x1E
  rw [CWallet.changeOutput, if_neg (by decide), hgenerate]
  simp only [hdecode, Option.map_some]
  rfl

/-- The key of the change leaves the first key where it is. -/
theorem signingKey_changedPayer (outpoint : COutPoint) (coin : CUTXO) :
    changedPayer.signingKey ⟨outpoint, coin, payerAddress⟩ = .ok payerPair := by
  have hother : payerAddress ≠ (twoKey.pair 0x1E).address := by
    intro hsame
    have hhash := congrArg Subtype.val (hash160ToAddress_inj hsame).2
    exact absurd hhash (by decide)
  have hkey : changedPayer.keystore.getKey payerAddress = .ok (some oneKey) := by
    rw [CKeystore.getKey_eq_some_iff rfl]
    refine ⟨payerEntry, ?_, rfl⟩
    change (payer.keystore.keys.insert (twoKey.pair 0x1E).address _)[payerAddress]? = _
    rw [orderedMap.lookup_insert, if_neg hother, keys_payer, orderedMap.lookup_insert, if_pos rfl]
  rw [CWallet.signingKey, hkey]
  rfl

/-- The transaction of a payment with change. -/
def changeTx : CTransaction :=
  { payerTx [coinAt 1, coinAt 2, coinAt 3] 10000 with
    vout := [{ value := 10000, scriptPubKey := buildP2PKHScript sampleHash },
      { value := 4470, scriptPubKey := buildP2PKHScript twoKey.hash160 }] }

theorem ownCoins_threeCoins : payer.ownCoins (payerView [coinAt 1, coinAt 2, coinAt 3] 5000) 1 =
    payerInputs [coinAt 1, coinAt 2, coinAt 3] 5000 := by
  rw [ownCoins_payer]
  rfl

/-- Three coins of 5000 units pay 10000 units, and 4470 come back. -/
theorem createTransaction_threeCoins : payer.createTransaction (payerView [coinAt 1, coinAt 2, coinAt 3] 5000) 1
    receiverAddress.bytes 10000 (fun _ => twoDraw) = (.ok ⟨changeTx, getTxID changeTx, 530⟩, changedPayer) := by
  have hfund : payer.fund (payerView [coinAt 1, coinAt 2, coinAt 3] 5000) 1 10000 0 =
      .ok ⟨payerInputs [coinAt 1, coinAt 2, coinAt 3] 5000, 15000, 4470⟩ := by
    unfold CWallet.fund
    simp only [selectCoins_payer ownCoins_threeCoins (by simp [payerInputs])]
    rfl
  refine createTransaction_payer (by decide) hfund changeOutput_payer ?_
  unfold CWallet.assemble
  simp only [payerInputs, List.map_cons, List.map_nil, List.mapM_cons, List.mapM_nil, signingKey_changedPayer, pure_bind]
  rfl

theorem createTransaction_accounts_payer : ∃ payment, payer.createTransaction
    (payerView [coinAt 1, coinAt 2, coinAt 3] 5000) 1 receiverAddress.bytes 10000 (fun _ => twoDraw) =
      (.ok payment, changedPayer) ∧ payment.tx.vin.length = 3 ∧ payment.tx.vout.length = 2 ∧ ∃ v toHash,
      decodeAddress receiverAddress.bytes = some (v, toHash) ∧
      payment.Accounts payer changedPayer (payerView [coinAt 1, coinAt 2, coinAt 3] 5000) 1 toHash 10000 :=
  ⟨_, createTransaction_threeCoins, rfl, rfl, createTransaction_accounts createTransaction_threeCoins⟩

end

end cdx
