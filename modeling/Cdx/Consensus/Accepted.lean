import Cdx.Consensus.Validation
import Cdx.Transaction.RoundTrip

namespace cdx

/-- The sum of the values of a list of outputs. -/
def outputValue (outs : List CTxOut) : Int := (outs.map fun out => out.value.toInt).sum

/-- The sum of the values of the coins a list of inputs refers to. -/
def inputValue (view : CCoinsView) (ins : List CTxIn) : Int :=
  (ins.map fun i => ((view.getCoin i.prevout).map fun coin => coin.value.toInt).getD 0).sum

/-- What `CheckTransaction` establishes. -/
structure WellFormed (tx : CTransaction) : Prop where
  vin_ne_nil : tx.vin ≠ []
  vout_ne_nil : tx.vout ≠ []
  vin_length : tx.vin.length ≤ MAX_TX_COUNT_PER_BLOCK
  vout_length : tx.vout.length ≤ MAX_TX_COUNT_PER_BLOCK
  inputs_nodup : (tx.vin.map CTxIn.prevout).Nodup
  values : ∀ out ∈ tx.vout, 0 ≤ out.value.toInt ∧ out.value.toInt ≤ MAX_MONEY
  total : outputValue tx.vout ≤ MAX_MONEY
  kind : checkInputKind tx = .ok ()

theorem MAX_MONEY_eq : MAX_MONEY = 2100000000000000 := by decide

theorem INT64_MIN_eq : INT64_MIN = -9223372036854775808 := by decide

theorem INT64_MAX_eq : INT64_MAX = 9223372036854775807 := by decide

/-- A 64-bit word has room for the sum of two amounts within the supply. -/
theorem addI64_of_money {sum : Sum64} {a b : Int} (hlow : 0 ≤ a + b) (hhigh : a + b ≤ 2 * MAX_MONEY) :
    addI64 sum a b = .ok (a + b) := by
  rw [MAX_MONEY_eq] at hhigh
  apply addI64_of_bounds
  · rw [INT64_MIN_eq]
    omega
  · rw [INT64_MAX_eq]
    omega

theorem outputValue_cons (out : CTxOut) (rest : List CTxOut) :
    outputValue (out :: rest) = out.value.toInt + outputValue rest := by
  simp [outputValue]

theorem outputValue_nonneg {outs : List CTxOut} (hvalues : ∀ out ∈ outs, 0 ≤ out.value.toInt) :
    0 ≤ outputValue outs := by
  apply List.sum_nonneg
  intro value hvalue
  obtain ⟨out, hout, rfl⟩ := List.mem_map.mp hvalue
  exact hvalues out hout

theorem inputValue_cons (view : CCoinsView) (i : CTxIn) (rest : List CTxIn) :
    inputValue view (i :: rest) =
      ((view.getCoin i.prevout).map fun coin => coin.value.toInt).getD 0 + inputValue view rest := by
  simp [inputValue]

theorem noOverflow_and_refuses {α : Type} {P : Prop} {a : α} (message : String) (hP : ¬ P) :
    NoOverflow (.error (.error message) : Except Reject α) ∧
      ((.error (.error message) : Except Reject α) = .ok a ↔ P) := by
  refine ⟨noOverflow_error _, iff_of_false ?_ hP⟩
  intro hok
  cases hok

/-- The output loop accepts exactly when every value and the running total stay in range. -/
theorem checkOutputs_spec {total : Int} {outs : List CTxOut} (htotal : 0 ≤ total) (hmax : total ≤ MAX_MONEY) :
    NoOverflow (checkOutputs total outs) ∧
      (checkOutputs total outs = .ok () ↔
        (∀ out ∈ outs, 0 ≤ out.value.toInt ∧ out.value.toInt ≤ MAX_MONEY) ∧
          total + outputValue outs ≤ MAX_MONEY) := by
  induction outs generalizing total with
  | nil =>
    refine ⟨noOverflow_ok (), ?_⟩
    simpa [checkOutputs, outputValue] using hmax
  | cons out rest ih =>
    unfold checkOutputs
    by_cases hneg : out.value.toInt < 0
    · rw [if_pos hneg]
      refine noOverflow_and_refuses _ ?_
      rintro ⟨hvalues, -⟩
      have hout := hvalues out List.mem_cons_self
      omega
    by_cases hlarge : out.value.toInt > MAX_MONEY
    · rw [if_neg hneg, if_pos hlarge]
      refine noOverflow_and_refuses _ ?_
      rintro ⟨hvalues, -⟩
      have hout := hvalues out List.mem_cons_self
      omega
    rw [if_neg hneg, if_neg hlarge]
    have hsum : addI64 .totalOut total out.value.toInt = .ok (total + out.value.toInt) :=
      addI64_of_money (by omega) (by omega)
    rw [hsum, bind_ok]
    by_cases hover : total + out.value.toInt > MAX_MONEY
    · rw [if_pos hover]
      refine noOverflow_and_refuses _ ?_
      rintro ⟨hvalues, htotal'⟩
      have hrest := outputValue_nonneg fun o ho => (hvalues o (List.mem_cons_of_mem _ ho)).1
      rw [outputValue_cons] at htotal'
      omega
    rw [if_neg hover]
    obtain ⟨hno, hiff⟩ := ih (show 0 ≤ total + out.value.toInt by omega) (not_lt.mp hover)
    refine ⟨hno, hiff.trans ?_⟩
    rw [outputValue_cons, List.forall_mem_cons, Int.add_assoc]
    constructor
    · rintro ⟨hvalues, hbound⟩
      exact ⟨⟨⟨by omega, by omega⟩, hvalues⟩, hbound⟩
    · rintro ⟨⟨-, hvalues⟩, hbound⟩
      exact ⟨hvalues, hbound⟩

theorem checkInputKind_noOverflow (tx : CTransaction) : NoOverflow (checkInputKind tx) := by
  intro sum h
  unfold checkInputKind at h
  split at h
  · split at h
    · cases h
    · split at h <;> cases h
  · split at h <;> cases h

theorem checkTransaction_noOverflow (tx : CTransaction) : NoOverflow (checkTransaction tx) := by
  unfold checkTransaction
  repeat' split
  all_goals try exact noOverflow_error _
  apply NoOverflow.bind (checkOutputs_spec (le_refl 0) (by decide)).1
  intro _ _
  exact checkInputKind_noOverflow tx

theorem wellFormed_of_checkTransaction {tx : CTransaction} (htx : checkTransaction tx = .ok ()) :
    WellFormed tx := by
  unfold checkTransaction at htx
  split at htx
  · cases htx
  split at htx
  · cases htx
  split at htx
  · cases htx
  split at htx
  · cases htx
  split at htx
  · cases htx
  next hvin hvout hins houts hnodup =>
    obtain ⟨_, houtputs, hkind⟩ := bind_eq_ok_iff.mp htx
    obtain ⟨hvalues, htotal⟩ := (checkOutputs_spec (le_refl 0) (by decide)).2.mp houtputs
    refine ⟨?_, ?_, not_lt.mp hins, not_lt.mp houts, not_not.mp hnodup, hvalues, ?_, hkind⟩
    · simpa using hvin
    · simpa using hvout
    · rwa [Int.zero_add] at htotal

theorem WellFormed.decodable {tx : CTransaction} (htx : WellFormed tx) : tx.Decodable := by
  have hin := htx.vin_length
  have hout := htx.vout_length
  rw [MAX_TX_COUNT_PER_BLOCK] at hin hout
  exact ⟨by omega, by omega⟩

/-- A loop that adds up outputs returns their sum when it returns. -/
theorem sumValues_eq_ok {sum : Sum64} {total result : Int} {outs : List CTxOut}
    (hsum : sumValues sum total outs = .ok result) : result = total + outputValue outs := by
  induction outs generalizing total with
  | nil =>
    cases hsum
    simp [outputValue]
  | cons out rest ih =>
    obtain ⟨next, hnext, hrest⟩ := bind_eq_ok_iff.mp hsum
    obtain ⟨-, rfl⟩ := addI64_eq_ok_iff.mp hnext
    rw [ih hrest, outputValue_cons]
    omega

theorem sumValues_of_bounds {sum : Sum64} {total : Int} {outs : List CTxOut} (htotal : 0 ≤ total)
    (hvalues : ∀ out ∈ outs, 0 ≤ out.value.toInt) (hmax : total + outputValue outs ≤ INT64_MAX) :
    sumValues sum total outs = .ok (total + outputValue outs) := by
  induction outs generalizing total with
  | nil => simp [sumValues, outputValue]
  | cons out rest ih =>
    have hout := hvalues out List.mem_cons_self
    have hrest := outputValue_nonneg fun o ho => hvalues o (List.mem_cons_of_mem _ ho)
    rw [outputValue_cons] at hmax ⊢
    have hnext : addI64 sum total out.value.toInt = .ok (total + out.value.toInt) := by
      apply addI64_of_bounds
      · rw [INT64_MIN_eq]
        omega
      · omega
    unfold sumValues
    rw [hnext, bind_ok, ih (by omega) (fun o ho => hvalues o (List.mem_cons_of_mem _ ho)) (by omega),
      Int.add_assoc]

/-- `CheckTransaction` has bounded the values, so their sum is exact. -/
theorem WellFormed.sumValues {tx : CTransaction} (htx : WellFormed tx) (sum : Sum64) :
    sumValues sum 0 tx.vout = .ok (outputValue tx.vout) := by
  have htotal := htx.total
  rw [MAX_MONEY_eq] at htotal
  rw [sumValues_of_bounds (le_refl 0) (fun out hout => (htx.values out hout).1), Int.zero_add]
  rw [INT64_MAX_eq]
  omega

/-- The view without the coins that a list of inputs refers to. -/
def spendAll (ins : List CTxIn) (view : CCoinsView) : CCoinsView :=
  ins.foldl (fun view i => (view.spendCoin i.prevout).2) view

theorem getCoin_spendAll (ins : List CTxIn) (view : CCoinsView) (out : COutPoint) :
    (spendAll ins view).getCoin out =
      if out ∈ ins.map CTxIn.prevout then none else view.getCoin out := by
  induction ins generalizing view with
  | nil => simp [spendAll]
  | cons i rest ih =>
    have hunfold : spendAll (i :: rest) view = spendAll rest (view.spendCoin i.prevout).2 := rfl
    rw [hunfold, ih, CCoinsView.getCoin_spendCoin, List.map_cons]
    exact orderedMap.ite_mem_cons ..

theorem spendInputs_eq_ok {ins : List CTxIn} {view spent : CCoinsView} (hspent : spendInputs ins view = .ok spent) :
    spent = spendAll ins view := by
  induction ins generalizing view with
  | nil =>
    cases hspent
    rfl
  | cons i rest ih =>
    unfold spendInputs at hspent
    cases hfound : (view.spendCoin i.prevout).1 with
    | false =>
      rw [show view.spendCoin i.prevout = (false, (view.spendCoin i.prevout).2) from Prod.ext hfound rfl] at hspent
      cases hspent
    | true =>
      rw [show view.spendCoin i.prevout = (true, (view.spendCoin i.prevout).2) from Prod.ext hfound rfl] at hspent
      exact ih hspent

theorem spendInputs_noOverflow (ins : List CTxIn) (view : CCoinsView) : NoOverflow (spendInputs ins view) := by
  induction ins generalizing view with
  | nil => exact noOverflow_ok view
  | cons i rest ih =>
    unfold spendInputs
    split
    · exact ih _
    · exact noOverflow_error _

/-- The coin that an output of a transaction other than the coinbase becomes. -/
def CTxOut.coin (out : CTxOut) (height : Int) : CUTXO where
  value := out.value
  scriptPubKey := out.scriptPubKey
  height := height
  isCoinbase := false

/-- The coins of a transaction stand at the indices of its outputs, and every
    other outpoint keeps its coin. -/
theorem getCoin_addOutputs (txid : UInt256) (height : Int) {j : Nat} {outs : List CTxOut} (view : CCoinsView)
    (hlen : j + outs.length ≤ 2 ^ 32) (out : COutPoint) :
    (addOutputs txid height j outs view).getCoin out =
      if out.hash = txid ∧ j ≤ out.n.toNat ∧ out.n.toNat < j + outs.length then
        (outs[out.n.toNat - j]?).map fun o => o.coin height
      else view.getCoin out := by
  induction outs generalizing j view with
  | nil =>
    rw [if_neg]
    · rfl
    · rintro ⟨-, hlow, hhigh⟩
      simp only [List.length_nil] at hhigh
      omega
  | cons first rest ih =>
    rw [List.length_cons] at hlen
    have hj : (UInt32.ofNat j).toNat = j := UInt32.toNat_ofNat_of_lt' (show j < 2 ^ 32 by omega)
    unfold addOutputs
    rw [ih _ (by omega), CCoinsView.getCoin_addCoin]
    by_cases hhash : out.hash = txid
    · by_cases hindex : out.n.toNat = j
      · have hout : out = ⟨txid, UInt32.ofNat j⟩ := by
          apply COutPoint.ext hhash
          apply UInt32.toNat_inj.mp
          rw [hj, hindex]
        rw [if_neg (by omega), if_pos hout, if_pos ⟨hhash, by omega, by rw [List.length_cons]; omega⟩, hindex,
          Nat.sub_self]
        rfl
      · have hout : out ≠ ⟨txid, UInt32.ofNat j⟩ := by
          rintro rfl
          exact hindex hj
        rw [if_neg hout]
        by_cases hrange : j + 1 ≤ out.n.toNat ∧ out.n.toNat < j + 1 + rest.length
        · rw [if_pos ⟨hhash, hrange⟩, if_pos ⟨hhash, by omega, by rw [List.length_cons]; omega⟩,
            show out.n.toNat - j = out.n.toNat - (j + 1) + 1 by omega, List.getElem?_cons_succ]
        · rw [if_neg (fun h => hrange h.2), if_neg]
          rintro ⟨-, hlow, hhigh⟩
          rw [List.length_cons] at hhigh
          exact hrange ⟨by omega, by omega⟩
    · have hout : out ≠ ⟨txid, UInt32.ofNat j⟩ := by
        rintro rfl
        exact hhash rfl
      rw [if_neg (fun h => hhash h.1), if_neg hout, if_neg (fun h => hhash h.1)]

variable [Crypto]

/-- What the input loop of `CheckTxInputs` establishes of one input. -/
def InputOk (tx : CTransaction) (view : CCoinsView) (height : Int) (index : Nat) (i : CTxIn) : Prop :=
  ∃ coin, view.getCoin i.prevout = some coin ∧ coin.isSpendable height = true ∧
    verifyScript i.scriptSig.val coin.scriptPubKey.val (signatureHash tx index coin.scriptPubKey).getBytesLE = .ok ()

/-- One round of the input loop. -/
theorem sumInputs_cons_eq_ok {tx : CTransaction} {view : CCoinsView} {height inSum result : Int} {index : Nat}
    {i : CTxIn} {rest : List CTxIn} (hsum : sumInputs tx view height index inSum (i :: rest) = .ok result) :
    InputOk tx view height index i ∧
      sumInputs tx view height (index + 1)
        (inSum + ((view.getCoin i.prevout).map fun coin => coin.value.toInt).getD 0) rest = .ok result := by
  unfold sumInputs at hsum
  cases hcoin : view.getCoin i.prevout with
  | none =>
    simp only [hcoin] at hsum
    cases hsum
  | some coin =>
    simp only [hcoin] at hsum
    split at hsum
    · cases hsum
    next hspendable =>
      split at hsum
      · cases hsum
      next hscript =>
        obtain ⟨next, hnext, htail⟩ := bind_eq_ok_iff.mp hsum
        obtain ⟨-, rfl⟩ := addI64_eq_ok_iff.mp hnext
        split at htail
        · cases htail
        · exact ⟨⟨coin, hcoin, by simpa using hspendable, hscript⟩, htail⟩

/-- The input loop returns the value of the coins it found. -/
theorem sumInputs_eq_ok {tx : CTransaction} {view : CCoinsView} {height inSum result : Int} {index : Nat}
    {ins : List CTxIn} (hsum : sumInputs tx view height index inSum ins = .ok result) :
    result = inSum + inputValue view ins ∧ ∀ k i, ins[k]? = some i → InputOk tx view height (index + k) i := by
  induction ins generalizing index inSum with
  | nil =>
    cases hsum
    simp [inputValue]
  | cons first rest ih =>
    obtain ⟨hfirst, htail⟩ := sumInputs_cons_eq_ok hsum
    obtain ⟨hresult, hrest⟩ := ih htail
    refine ⟨?_, ?_⟩
    · rw [hresult, inputValue_cons, Int.add_assoc]
    · intro k i hk
      cases k with
      | zero =>
        cases hk
        exact hfirst
      | succ k =>
        rw [show index + (k + 1) = index + 1 + k by omega]
        exact hrest k i hk

/-- What `CheckTxInputs` establishes. -/
theorem checkTxInputs_eq_ok {tx : CTransaction} {view : CCoinsView} {height fee : Int}
    (hfee : checkTxInputs tx view height = .ok fee) :
    tx.isCoinBase = false ∧ (∀ k i, tx.vin[k]? = some i → InputOk tx view height k i) ∧ 0 ≤ fee ∧
      fee = inputValue view tx.vin - outputValue tx.vout := by
  unfold checkTxInputs at hfee
  split at hfee
  · cases hfee
  next hcoinbase =>
    obtain ⟨inSum, hin, hfee⟩ := bind_eq_ok_iff.mp hfee
    obtain ⟨outSum, hout, hfee⟩ := bind_eq_ok_iff.mp hfee
    obtain ⟨hinSum, hinputs⟩ := sumInputs_eq_ok hin
    have houtSum := sumValues_eq_ok hout
    split at hfee
    · cases hfee
    next hle =>
      obtain ⟨-, rfl⟩ := addI64_eq_ok_iff.mp hfee
      refine ⟨by simpa using hcoinbase, ?_, by omega, by omega⟩
      intro k i hk
      have hok := hinputs k i hk
      rwa [Nat.zero_add] at hok

/-- What one round of the first pass of `CheckBlock` does. -/
structure ConnectedTx (height : Int) (tx : CTransaction) (view : CCoinsView) (fees : Int) (view' : CCoinsView)
    (fees' : Int) : Prop where
  wellFormed : WellFormed tx
  notCoinBase : tx.isCoinBase = false
  inputs : ∀ k i, tx.vin[k]? = some i → InputOk tx view height k i
  fee_nonneg : outputValue tx.vout ≤ inputValue view tx.vin
  fees_eq : fees' = fees + (inputValue view tx.vin - outputValue tx.vout)
  view_eq : view' = addOutputs (getTxID tx) height 0 tx.vout (spendAll tx.vin view)

theorem connectTx_eq_ok {height fees fees' : Int} {tx : CTransaction} {view view' : CCoinsView}
    (hconnect : connectTx height tx view fees = .ok (view', fees')) :
    ConnectedTx height tx view fees view' fees' := by
  obtain ⟨_, htx, hconnect⟩ := bind_eq_ok_iff.mp hconnect
  obtain ⟨fee, hfee, hconnect⟩ := bind_eq_ok_iff.mp hconnect
  obtain ⟨sum, hsum, hconnect⟩ := bind_eq_ok_iff.mp hconnect
  obtain ⟨spent, hspent, hconnect⟩ := bind_eq_ok_iff.mp hconnect
  obtain ⟨hcoinbase, hinputs, hnonneg, hfee⟩ := checkTxInputs_eq_ok hfee
  obtain ⟨-, rfl⟩ := addI64_eq_ok_iff.mp hsum
  have hview := spendInputs_eq_ok hspent
  cases hconnect
  exact ⟨wellFormed_of_checkTransaction htx, hcoinbase, hinputs, by omega, by rw [hfee], by rw [hview]⟩

/-- The input of a connected transaction exists in the view it is connected to. -/
theorem ConnectedTx.input_found {height fees fees' : Int} {tx : CTransaction} {view view' : CCoinsView}
    (hconnected : ConnectedTx height tx view fees view' fees') {i : CTxIn} (hi : i ∈ tx.vin) :
    ∃ coin, view.getCoin i.prevout = some coin := by
  obtain ⟨k, hk⟩ := List.mem_iff_getElem?.mp hi
  obtain ⟨coin, hcoin, -, -⟩ := hconnected.inputs k i hk
  exact ⟨coin, hcoin⟩

theorem connectTxs_cons_eq_ok {height fees fees' : Int} {tx : CTransaction} {rest : List CTransaction}
    {view view' : CCoinsView} (hconnect : connectTxs height (tx :: rest) view fees = .ok (view', fees')) :
    ∃ mid midFees, ConnectedTx height tx view fees mid midFees ∧
      connectTxs height rest mid midFees = .ok (view', fees') := by
  obtain ⟨⟨mid, midFees⟩, hfirst, hrest⟩ := bind_eq_ok_iff.mp hconnect
  exact ⟨mid, midFees, connectTx_eq_ok hfirst, hrest⟩

/-- What the second pass of `CheckBlock` does. -/
structure ConnectedCoinbase (height : Int) (tx : CTransaction) (view : CCoinsView) (fees : Int)
    (view' : CCoinsView) : Prop where
  wellFormed : WellFormed tx
  value_le : outputValue tx.vout ≤ getBlockSubsidy height + fees
  view_eq : view' = view.addCoin ⟨getTxID tx, 0⟩ (coinbaseCoin tx height (outputValue tx.vout))

theorem connectCoinbase_eq_ok {height fees : Int} {tx : CTransaction} {view view' : CCoinsView}
    (hconnect : connectCoinbase height tx view fees = .ok view') :
    ConnectedCoinbase height tx view fees view' := by
  obtain ⟨_, htx, hconnect⟩ := bind_eq_ok_iff.mp hconnect
  obtain ⟨cbValue, hvalue, hconnect⟩ := bind_eq_ok_iff.mp hconnect
  obtain ⟨valid, hvalid, hconnect⟩ := bind_eq_ok_iff.mp hconnect
  obtain ⟨limit, hlimit, hvalid⟩ := bind_eq_ok_iff.mp hvalid
  obtain ⟨-, rfl⟩ := addI64_eq_ok_iff.mp hlimit
  have hcbValue := sumValues_eq_ok hvalue
  rw [Int.zero_add] at hcbValue
  subst hcbValue
  cases hvalid
  split at hconnect
  next hle =>
    cases hconnect
    exact ⟨wellFormed_of_checkTransaction htx, of_decide_eq_true hle, rfl⟩
  · cases hconnect

/-- What `CheckBlock` establishes of a block it accepts. -/
structure AcceptedBlock (blk : CBlock) (height : Int) (view view' : CCoinsView) (coinbase : CTransaction)
    (txs : List CTransaction) (mid : CCoinsView) (fees : Int) : Prop where
  vtx_eq : blk.vtx = coinbase :: txs
  coinbase_first : coinbase.isCoinBase = true
  vtx_length : blk.vtx.length ≤ MAX_TX_COUNT_PER_BLOCK
  merkleRoot : blk.checkMerkleRoot = true
  connected : connectTxs height txs view 0 = .ok (mid, fees)
  coinbase_connected : ConnectedCoinbase height coinbase mid fees view'

theorem checkBlock_eq_ok {blk : CBlock} {height fees : Int} {view view' : CCoinsView}
    (hblk : checkBlock blk height view = .ok (view', fees)) :
    ∃ coinbase txs mid, AcceptedBlock blk height view view' coinbase txs mid fees := by
  unfold checkBlock at hblk
  split at hblk
  · cases hblk
  next coinbase txs hvtx =>
    split at hblk
    · cases hblk
    next hcoinbase =>
    split at hblk
    · cases hblk
    split at hblk
    · cases hblk
    next hlen =>
    split at hblk
    · cases hblk
    next hmerkle =>
      obtain ⟨⟨mid, midFees⟩, hconnected, hblk⟩ := bind_eq_ok_iff.mp hblk
      obtain ⟨last, hlast, hblk⟩ := bind_eq_ok_iff.mp hblk
      cases hblk
      exact ⟨coinbase, txs, mid, hvtx, by simpa using hcoinbase, not_lt.mp hlen, by simpa using hmerkle, hconnected,
        connectCoinbase_eq_ok hlast⟩

theorem connectTxs_wellFormed {height fees fees' : Int} {txs : List CTransaction} {view view' : CCoinsView}
    (hconnect : connectTxs height txs view fees = .ok (view', fees')) : ∀ tx ∈ txs, WellFormed tx := by
  induction txs generalizing view fees with
  | nil => simp
  | cons tx rest ih =>
    obtain ⟨mid, midFees, hfirst, hrest⟩ := connectTxs_cons_eq_ok hconnect
    rw [List.forall_mem_cons]
    exact ⟨hfirst.wellFormed, ih hrest⟩

theorem AcceptedBlock.wellFormed {blk : CBlock} {height fees : Int} {view view' mid : CCoinsView}
    {coinbase : CTransaction} {txs : List CTransaction}
    (hblk : AcceptedBlock blk height view view' coinbase txs mid fees) : ∀ tx ∈ blk.vtx, WellFormed tx := by
  rw [hblk.vtx_eq, List.forall_mem_cons]
  exact ⟨hblk.coinbase_connected.wellFormed, connectTxs_wellFormed hblk.connected⟩

/-- An accepted block survives the wire format, so storage can return it. -/
theorem decodable_of_checkBlock {blk : CBlock} {height fees : Int} {view view' : CCoinsView}
    (hblk : checkBlock blk height view = .ok (view', fees)) : blk.Decodable := by
  obtain ⟨coinbase, txs, mid, haccepted⟩ := checkBlock_eq_ok hblk
  have hlen := haccepted.vtx_length
  rw [MAX_TX_COUNT_PER_BLOCK] at hlen
  exact ⟨by omega, fun tx htx => (haccepted.wellFormed tx htx).decodable⟩

/-- The header check against a parent. -/
theorem checkBlockHeader_some_eq_ok_iff {hdr prev : CBlockHeader} {params : ChainParams} :
    checkBlockHeader hdr (some prev) params = .ok () ↔
      checkProofOfWork hdr.getHash hdr.bits = true ∧ hdr.prevBlockHash = prev.getHash ∧
        prev.timestamp < hdr.timestamp := by
  unfold checkBlockHeader
  by_cases hpow : checkProofOfWork hdr.getHash hdr.bits = false
  · rw [if_pos hpow, hpow]
    constructor
    · intro h
      cases h
    · rintro ⟨h, -⟩
      cases h
  rw [if_neg hpow]
  simp only
  by_cases hprev : hdr.prevBlockHash = prev.getHash
  · rw [if_neg (not_not.mpr hprev)]
    by_cases htime : hdr.timestamp ≤ prev.timestamp
    · rw [if_pos htime]
      constructor
      · intro h
        cases h
      · rintro ⟨-, -, h⟩
        exact absurd h (UInt32.not_lt.mpr htime)
    · rw [if_neg htime]
      exact ⟨fun _ => ⟨Bool.of_not_eq_false hpow, hprev, UInt32.not_le.mp htime⟩, fun _ => rfl⟩
  · rw [if_pos hprev]
    constructor
    · intro h
      cases h
    · rintro ⟨-, h, -⟩
      exact absurd h hprev

end cdx
