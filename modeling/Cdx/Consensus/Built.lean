import Cdx.Consensus.Supply

namespace cdx

/-- A coinbase as the block builders make it: the null input, and one output of the given value. -/
def builtCoinbase (scriptSig : Script) (value : Int) (script : Script) : CTransaction where
  vin := [{ prevout := ⟨0, 0xffffffff⟩, scriptSig := scriptSig }]
  vout := [{ value := Int64.ofInt value, scriptPubKey := script }]

theorem isCoinBase_builtCoinbase (scriptSig : Script) (value : Int) (script : Script) :
    (builtCoinbase scriptSig value script).isCoinBase = true := by
  have hnull : (UInt256.isZero 0 && (0xffffffff : UInt32) == 0xffffffff) = true := by decide
  exact hnull

theorem value_builtCoinbase (scriptSig : Script) {value : Int} (hlow : 0 ≤ value) (hhigh : value ≤ MAX_MONEY)
    (script : Script) : outputValue (builtCoinbase scriptSig value script).vout = value := by
  rw [outputValue, builtCoinbase, List.map_singleton, List.sum_singleton, toInt_ofInt_of_money hlow hhigh]

/-- `CheckTransaction` looks at the length of a coinbase's script and at its value, and at no other script. -/
theorem checkTransaction_builtCoinbase {scriptSig : Script} (hshort : 2 ≤ scriptSig.val.length)
    (hlong : scriptSig.val.length ≤ 100) {value : Int} (hlow : 0 ≤ value) (hhigh : value ≤ MAX_MONEY) (script : Script) :
    checkTransaction (builtCoinbase scriptSig value script) = .ok () := by
  have hvalue := value_builtCoinbase scriptSig hlow hhigh script
  have houtputs : checkOutputs 0 (builtCoinbase scriptSig value script).vout = .ok () := by
    apply (checkOutputs_spec (le_refl 0) (by decide)).2.mpr
    rw [hvalue, Int.zero_add]
    refine ⟨?_, hhigh⟩
    intro out hout
    cases List.mem_singleton.mp hout
    rw [outputValue, builtCoinbase, List.map_singleton, List.sum_singleton] at hvalue
    rw [hvalue]
    exact ⟨hlow, hhigh⟩
  have hkind : checkInputKind (builtCoinbase scriptSig value script) = .ok () := by
    have hlength : ¬ (scriptSig.val.length < 2 ∨ scriptSig.val.length > 100) := by omega
    unfold checkInputKind
    rw [if_pos (isCoinBase_builtCoinbase scriptSig value script)]
    exact if_neg hlength
  unfold checkTransaction
  rw [houtputs, bind_ok, hkind]
  rfl

variable [Crypto]

/-- A coinbase that claims no more than it may passes the second pass of `CheckBlock`. -/
theorem connectCoinbase_of_value {tx : CTransaction} {height fees : Int} (htx : checkTransaction tx = .ok ())
    (hlow : 0 ≤ fees) (hhigh : fees ≤ MAX_MONEY) (hvalue : outputValue tx.vout ≤ getBlockSubsidy height + fees)
    (view : CCoinsView) :
    connectCoinbase height tx view fees =
      .ok (view.addCoin ⟨getTxID tx, 0⟩ (coinbaseCoin tx height (outputValue tx.vout))) := by
  have hwf := wellFormed_of_checkTransaction htx
  have hsubsidyLow := (getBlockSubsidy_bounds height).1
  have hsubsidyHigh := getBlockSubsidy_le_maxMoney height
  have hvalid : isCoinbaseValueValid (outputValue tx.vout) (getBlockSubsidy height) fees = .ok true := by
    unfold isCoinbaseValueValid
    rw [addI64_of_money (by omega) (by omega), bind_ok, decide_eq_true hvalue]
    rfl
  unfold connectCoinbase
  rw [htx, bind_ok, hwf.sumValues, bind_ok, hvalid, bind_ok]
  rfl

/-- A block passes `CheckBlock` when both of its passes succeed. -/
theorem checkBlock_of_connected {blk : CBlock} {coinbase : CTransaction} {txs : List CTransaction} {height fees : Int}
    {view mid view' : CCoinsView} (hvtx : blk.vtx = coinbase :: txs) (hcoinbase : coinbase.isCoinBase = true)
    (hothers : ∀ tx ∈ txs, tx.isCoinBase = false) (hlength : blk.vtx.length ≤ MAX_TX_COUNT_PER_BLOCK)
    (hmerkle : blk.checkMerkleRoot = true) (hconnected : connectTxs height txs view 0 = .ok (mid, fees))
    (hpaid : connectCoinbase height coinbase mid fees = .ok view') : checkBlock blk height view = .ok (view', fees) := by
  have hnone : ¬ txs.any CTransaction.isCoinBase = true := by
    rw [List.any_eq_true]
    rintro ⟨tx, htx, hkind⟩
    rw [hothers tx htx] at hkind
    cases hkind
  rw [hvtx] at hlength
  unfold checkBlock
  simp only [hvtx, hcoinbase, hmerkle]
  rw [if_neg (by decide), if_neg hnone, if_neg (by omega), if_neg (by decide), hconnected, bind_ok]
  simp only [hpaid, bind_ok]
  rfl

end cdx
