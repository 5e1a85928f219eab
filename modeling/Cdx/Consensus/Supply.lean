import Cdx.Consensus.Accepted

namespace cdx

theorem INITIAL_BLOCK_REWARD_eq : INITIAL_BLOCK_REWARD = 5000000000 := by decide

theorem tdiv_halvingInterval (h : Nat) : (h : Int).tdiv HALVING_INTERVAL = (h / 210000 : Nat) := by
  rw [HALVING_INTERVAL, Int.tdiv_eq_ediv_of_nonneg (Int.natCast_nonneg h)]
  rfl

/-- The subsidy at a height halves with every whole interval below it. -/
theorem getBlockSubsidy_natCast (h : Nat) : getBlockSubsidy h = (5000000000 / 2 ^ (h / 210000) : Nat) := by
  unfold getBlockSubsidy
  simp only [tdiv_halvingInterval, Int.toNat_natCast]
  split
  next hlate =>
    have hpow : 2 ^ 64 ≤ 2 ^ (h / 210000) := Nat.pow_le_pow_right (by decide) (by exact_mod_cast hlate)
    have hzero : 5000000000 / 2 ^ (h / 210000) = 0 := Nat.div_eq_of_lt (lt_of_lt_of_le (by decide) hpow)
    rw [hzero]
    rfl
  next =>
    rw [INITIAL_BLOCK_REWARD_eq, Int.shiftRight_eq_div_pow]
    norm_cast

theorem getBlockSubsidy_bounds (height : Int) :
    0 ≤ getBlockSubsidy height ∧ getBlockSubsidy height ≤ INITIAL_BLOCK_REWARD := by
  unfold getBlockSubsidy
  simp only
  split
  · decide
  · rw [INITIAL_BLOCK_REWARD_eq, Int.shiftRight_eq_div_pow]
    constructor
    · positivity
    · exact Int.ediv_le_self _ (by decide)

theorem getBlockSubsidy_le_maxMoney (height : Int) : getBlockSubsidy height ≤ MAX_MONEY :=
  le_trans (getBlockSubsidy_bounds height).2 (by decide)

/-- The subsidies of the first `n` heights. -/
def subsidySum (n : Nat) : Int := ((List.range n).map fun h => getBlockSubsidy (h : Int)).sum

theorem subsidySum_succ (n : Nat) : subsidySum (n + 1) = subsidySum n + getBlockSubsidy n := by
  simp [subsidySum, List.range_succ]

theorem subsidySum_nonneg (n : Nat) : 0 ≤ subsidySum n := by
  induction n with
  | zero => decide
  | succ n ih =>
    rw [subsidySum_succ]
    exact Int.add_nonneg ih (getBlockSubsidy_bounds n).1

/-- With `n` heights in `k` whole intervals, what has been paid leaves room for
    as much again as the current reward pays for two intervals. -/
private theorem subsidySum_bound (n : Nat) :
    subsidySum n + 420000 * (5000000000 / 2 ^ (n / 210000) : Nat) ≤
      420000 * 5000000000 + (n % 210000 : Nat) * (5000000000 / 2 ^ (n / 210000) : Nat) := by
  induction n with
  | zero => simp [subsidySum]
  | succ n ih =>
    rw [subsidySum_succ, getBlockSubsidy_natCast]
    by_cases hend : n % 210000 + 1 < 210000
    · have hk : (n + 1) / 210000 = n / 210000 := by omega
      have hr : (n + 1) % 210000 = n % 210000 + 1 := by omega
      rw [hk, hr]
      push_cast at ih ⊢
      linarith
    · have hk : (n + 1) / 210000 = n / 210000 + 1 := by omega
      have hr : (n + 1) % 210000 = 0 := by omega
      have hr' : n % 210000 = 209999 := by omega
      have hhalf : 2 * (5000000000 / 2 ^ (n / 210000 + 1)) ≤ 5000000000 / 2 ^ (n / 210000) := by
        rw [pow_succ, ← Nat.div_div_eq_div_mul]
        omega
      rw [hr'] at ih
      rw [hk, hr]
      zify at hhalf
      push_cast at ih hhalf ⊢
      linarith

theorem subsidySum_le (n : Nat) : subsidySum n ≤ MAX_SUPPLY_BASE := by
  have hbound := subsidySum_bound n
  have hrest : (n % 210000 : Nat) * (5000000000 / 2 ^ (n / 210000) : Nat) ≤
      420000 * (5000000000 / 2 ^ (n / 210000)) := Nat.mul_le_mul_right _ (by omega)
  have hmax : MAX_SUPPLY_BASE = 420000 * 5000000000 := by decide
  rw [hmax]
  zify at hrest
  push_cast at hbound hrest ⊢
  linarith

/-- The subsidies from `h` on, within one interval. -/
theorem subsidySum_interval {h n : Nat} (hinterval : h % 210000 + n ≤ 210000) :
    subsidySum (h + n) = subsidySum h + getBlockSubsidy h * n := by
  induction n with
  | zero => simp
  | succ n ih =>
    have hsame : (h + n) / 210000 = h / 210000 := by omega
    rw [← Nat.add_assoc, subsidySum_succ, ih (by omega), getBlockSubsidy_natCast (h + n), hsame,
      ← getBlockSubsidy_natCast]
    push_cast
    rw [Int.mul_add, Int.mul_one, Int.add_assoc]

/-- Once the subsidy is nothing it stays nothing. -/
theorem subsidySum_of_zero {h : Nat} (hzero : getBlockSubsidy h = 0) (n : Nat) :
    subsidySum (h + n) = subsidySum h := by
  induction n with
  | zero => rfl
  | succ n ih =>
    have hpow : 2 ^ (h / 210000) ≤ 2 ^ ((h + n) / 210000) :=
      Nat.pow_le_pow_right (by decide) (Nat.div_le_div_right (by omega))
    have hlater : getBlockSubsidy (h + n : Nat) = 0 := by
      rw [getBlockSubsidy_natCast] at hzero ⊢
      have hle : 5000000000 / 2 ^ ((h + n) / 210000) ≤ 5000000000 / 2 ^ (h / 210000) :=
        Nat.div_le_div_left hpow (Nat.two_pow_pos _)
      rw [Int.natCast_eq_zero] at hzero ⊢
      exact Nat.le_zero.mp (hzero ▸ hle)
    rw [← Nat.add_assoc, subsidySum_succ, ih, hlater, Int.add_zero]

/-- A round of the loop stops at the end of the interval, or at the height asked for. -/
theorem intervalStop_eq (h height : Nat) : (if ((h : Int).tdiv HALVING_INTERVAL + 1) * HALVING_INTERVAL < height then
    ((h : Int).tdiv HALVING_INTERVAL + 1) * HALVING_INTERVAL else (height : Int)) =
      (min ((h / 210000 + 1) * 210000) height : Nat) := by
  rw [tdiv_halvingInterval, HALVING_INTERVAL]
  split <;> omega

/-- The loop adds the subsidies of the heights still ahead, an interval at a time. -/
private theorem cumulativeSupplyLoop_eq (height h : Nat) (total : Int) (hle : h ≤ height) :
    cumulativeSupplyLoop height h total = total + (subsidySum height - subsidySum h) := by
  rw [cumulativeSupplyLoop]
  by_cases hdone : h = height
  · subst hdone
    simp
  rw [if_pos (by omega)]
  simp only
  by_cases hzero : getBlockSubsidy h = 0
  · have hrest := subsidySum_of_zero hzero (height - h)
    rw [Nat.add_sub_cancel' hle] at hrest
    rw [if_pos hzero, hrest]
    omega
  rw [if_neg hzero]
  obtain ⟨n, hn⟩ : ∃ n, min ((h / 210000 + 1) * 210000) height = h + n :=
    ⟨min ((h / 210000 + 1) * 210000) height - h, by omega⟩
  rw [intervalStop_eq, hn, cumulativeSupplyLoop_eq height (h + n) _ (by omega), subsidySum_interval (by omega)]
  push_cast
  rw [add_sub_cancel_left]
  omega
termination_by height - h
decreasing_by omega

/-- `GetCumulativeSupplyAt` is the sum of the subsidies below the height. -/
theorem getCumulativeSupplyAt_eq (n : Nat) : getCumulativeSupplyAt n = subsidySum n := by
  have hloop := cumulativeSupplyLoop_eq n 0 0 (Nat.zero_le n)
  have hnone : subsidySum 0 = 0 := rfl
  rw [getCumulativeSupplyAt]
  rw [hnone] at hloop
  simpa using hloop

theorem CCoinsView.InRange.spendAll {view : CCoinsView} (hview : view.InRange) (ins : List CTxIn) :
    (spendAll ins view).InRange := by
  intro out coin hcoin
  rw [getCoin_spendAll] at hcoin
  split at hcoin
  · cases hcoin
  · exact hview out coin hcoin

/-- Spending distinct coins takes exactly their value out of the view. -/
theorem totalValue_spendAll {view : CCoinsView} {ins : List CTxIn} (hnodup : (ins.map CTxIn.prevout).Nodup)
    (hfound : ∀ i ∈ ins, ∃ coin, view.getCoin i.prevout = some coin) :
    (spendAll ins view).totalValue = view.totalValue - inputValue view ins := by
  induction ins generalizing view with
  | nil => simp [spendAll, inputValue]
  | cons i rest ih =>
    rw [List.map_cons, List.nodup_cons] at hnodup
    obtain ⟨coin, hcoin⟩ := hfound i List.mem_cons_self
    -- The other inputs see the same coins after the first one is gone.
    have hkept : ∀ i' ∈ rest, (view.spendCoin i.prevout).2.getCoin i'.prevout = view.getCoin i'.prevout := by
      intro i' hi'
      rw [CCoinsView.getCoin_spendCoin, if_neg]
      intro hsame
      exact hnodup.1 (hsame ▸ List.mem_map_of_mem hi')
    have hvalue : inputValue (view.spendCoin i.prevout).2 rest = inputValue view rest := by
      unfold inputValue
      congr 1
      apply List.map_congr_left
      intro i' hi'
      rw [hkept i' hi']
    have hothers : ∀ i' ∈ rest, ∃ coin, (view.spendCoin i.prevout).2.getCoin i'.prevout = some coin := by
      intro i' hi'
      rw [hkept i' hi']
      exact hfound i' (List.mem_cons_of_mem _ hi')
    have hrest := ih hnodup.2 hothers
    have hspent := CCoinsView.totalValue_spendCoin hcoin
    have hunfold : spendAll (i :: rest) view = spendAll rest (view.spendCoin i.prevout).2 := rfl
    rw [hunfold, hrest, hvalue, inputValue_cons, hcoin]
    simp only [Option.map_some, Option.getD_some]
    omega

/-- Adding outputs adds at most their value, less where they replace coins. -/
theorem addOutputs_supply (txid : UInt256) (height : Int) {j : Nat} {outs : List CTxOut} {view : CCoinsView}
    (hview : view.InRange) (houts : ∀ out ∈ outs, 0 ≤ out.value.toInt ∧ out.value.toInt ≤ MAX_MONEY) :
    (addOutputs txid height j outs view).InRange ∧
      (addOutputs txid height j outs view).totalValue ≤ view.totalValue + outputValue outs := by
  induction outs generalizing j view with
  | nil => exact ⟨hview, by simp [addOutputs, outputValue]⟩
  | cons out rest ih =>
    rw [List.forall_mem_cons] at houts
    have hadd := hview.totalValue_addCoin_le ⟨txid, UInt32.ofNat j⟩ (out.coin height)
    have hfirst : (view.addCoin ⟨txid, UInt32.ofNat j⟩ (out.coin height)).InRange := hview.addCoin _ houts.1
    obtain ⟨hrange, htotal⟩ := ih (j := j + 1) hfirst houts.2
    refine ⟨hrange, ?_⟩
    rw [outputValue_cons]
    have hvalue : (out.coin height).value = out.value := rfl
    rw [hvalue] at hadd
    change (addOutputs txid height (j + 1) rest (view.addCoin ⟨txid, UInt32.ofNat j⟩ (out.coin height))).totalValue ≤ _
    omega

theorem toInt_ofInt_of_bounds {v : Int} (hlow : INT64_MIN ≤ v) (hhigh : v ≤ INT64_MAX) : (Int64.ofInt v).toInt = v := by
  rw [INT64_MIN_eq] at hlow
  rw [INT64_MAX_eq] at hhigh
  exact Int64.toInt_ofInt_of_le (by omega) (by omega)

theorem toInt_ofInt_of_money {v : Int} (hlow : 0 ≤ v) (hhigh : v ≤ MAX_MONEY) : (Int64.ofInt v).toInt = v := by
  rw [MAX_MONEY_eq] at hhigh
  exact Int64.toInt_ofInt_of_le (by omega) (by omega)

/-- The value of the coin a coinbase becomes is the sum of its outputs. -/
theorem coinbaseCoin_value {tx : CTransaction} (htx : WellFormed tx) (height : Int) :
    (coinbaseCoin tx height (outputValue tx.vout)).value.toInt = outputValue tx.vout := by
  exact toInt_ofInt_of_money (outputValue_nonneg fun out hout => (htx.values out hout).1) htx.total

variable [Crypto]

/-- A connected transaction moves value from the view to the fees; none appears. -/
theorem ConnectedTx.supply {height fees fees' : Int} {tx : CTransaction} {view view' : CCoinsView}
    (hconnected : ConnectedTx height tx view fees view' fees') (hview : view.InRange) :
    view'.InRange ∧ fees ≤ fees' ∧ view'.totalValue + fees' ≤ view.totalValue + fees := by
  have hspent := totalValue_spendAll hconnected.wellFormed.inputs_nodup fun i hi => hconnected.input_found hi
  obtain ⟨hrange, htotal⟩ := addOutputs_supply (getTxID tx) height (j := 0) (hview.spendAll tx.vin)
    hconnected.wellFormed.values
  rw [← hconnected.view_eq] at hrange htotal
  have hfees := hconnected.fees_eq
  have hfee := hconnected.fee_nonneg
  exact ⟨hrange, by omega, by omega⟩

theorem connectTxs_supply {height fees fees' : Int} {txs : List CTransaction} {view view' : CCoinsView}
    (hconnect : connectTxs height txs view fees = .ok (view', fees')) (hview : view.InRange) :
    view'.InRange ∧ fees ≤ fees' ∧ view'.totalValue + fees' ≤ view.totalValue + fees := by
  induction txs generalizing view fees with
  | nil =>
    cases hconnect
    exact ⟨hview, le_refl _, le_refl _⟩
  | cons tx rest ih =>
    obtain ⟨mid, midFees, hfirst, hrest⟩ := connectTxs_cons_eq_ok hconnect
    obtain ⟨hmid, hmidFees, hmidTotal⟩ := hfirst.supply hview
    obtain ⟨hlast, hlastFees, hlastTotal⟩ := ih hrest hmid
    exact ⟨hlast, by omega, by omega⟩

/-- An accepted block creates at most the subsidy of its height. -/
theorem checkBlock_supply {blk : CBlock} {height fees : Int} {view view' : CCoinsView}
    (hblk : checkBlock blk height view = .ok (view', fees)) (hview : view.InRange) :
    view'.InRange ∧ view'.totalValue ≤ view.totalValue + getBlockSubsidy height := by
  obtain ⟨coinbase, txs, mid, haccepted⟩ := checkBlock_eq_ok hblk
  obtain ⟨hmid, -, htotal⟩ := connectTxs_supply haccepted.connected hview
  have hcoinbase := haccepted.coinbase_connected
  have hvalue := coinbaseCoin_value hcoinbase.wellFormed height
  have hnonneg := outputValue_nonneg fun out hout => (hcoinbase.wellFormed.values out hout).1
  have hadd := hmid.totalValue_addCoin_le ⟨getTxID coinbase, 0⟩
    (coinbaseCoin coinbase height (outputValue coinbase.vout))
  rw [hvalue] at hadd
  have hbound := hcoinbase.value_le
  rw [hcoinbase.view_eq]
  refine ⟨hmid.addCoin _ ?_, by omega⟩
  rw [hvalue]
  exact ⟨hnonneg, hcoinbase.wellFormed.total⟩

/-- The input loop cannot overflow: the running sum is checked after every coin. -/
theorem sumInputs_noOverflow {tx : CTransaction} {view : CCoinsView} (hview : view.InRange) {height inSum : Int}
    {index : Nat} {ins : List CTxIn} (hlow : 0 ≤ inSum) (hhigh : inSum ≤ MAX_MONEY) :
    NoOverflow (sumInputs tx view height index inSum ins) := by
  induction ins generalizing index inSum with
  | nil => exact noOverflow_ok inSum
  | cons i rest ih =>
    unfold sumInputs
    cases hcoin : view.getCoin i.prevout with
    | none => exact noOverflow_error _
    | some coin =>
      simp only
      split
      · exact noOverflow_error _
      split
      · exact noOverflow_error _
      obtain ⟨hcoinLow, hcoinHigh⟩ := hview i.prevout coin hcoin
      have hnext : addI64 .inSum inSum coin.value.toInt = .ok (inSum + coin.value.toInt) :=
        addI64_of_money (by omega) (by omega)
      rw [hnext, bind_ok]
      split
      · exact noOverflow_error _
      next hle => exact ih (by omega) (not_lt.mp hle)

theorem sumInputs_le {tx : CTransaction} {view : CCoinsView} {height inSum result : Int} {index : Nat}
    {ins : List CTxIn} (hsum : sumInputs tx view height index inSum ins = .ok result) (hhigh : inSum ≤ MAX_MONEY) :
    result ≤ MAX_MONEY := by
  induction ins generalizing index inSum with
  | nil =>
    cases hsum
    exact hhigh
  | cons i rest ih =>
    unfold sumInputs at hsum
    split at hsum
    · cases hsum
    split at hsum
    · cases hsum
    split at hsum
    · cases hsum
    obtain ⟨next, -, htail⟩ := bind_eq_ok_iff.mp hsum
    split at htail
    · cases htail
    next hle => exact ih htail (not_lt.mp hle)

/-- The sums of `CheckTxInputs` stay in range for a well-formed transaction. -/
theorem checkTxInputs_noOverflow {tx : CTransaction} (htx : WellFormed tx) {view : CCoinsView}
    (hview : view.InRange) (height : Int) : NoOverflow (checkTxInputs tx view height) := by
  have houts := outputValue_nonneg fun out hout => (htx.values out hout).1
  unfold checkTxInputs
  split
  · exact noOverflow_error _
  apply NoOverflow.bind (sumInputs_noOverflow hview (le_refl 0) (by decide))
  intro inSum hinSum
  have hmax := sumInputs_le hinSum (by decide)
  rw [htx.sumValues, bind_ok]
  split
  · exact noOverflow_error _
  next hle =>
    rw [addI64_of_money (by omega) (by omega)]
    exact noOverflow_ok _

/-- A fee is paid from coins of the view, so fees never exceed the value that the view held at the
    start of the block. -/
theorem addFee_of_totalValue {tx : CTransaction} {view : CCoinsView} {height fees fee : Int} (htx : WellFormed tx)
    (hfee : checkTxInputs tx view height = .ok fee) (hview : view.InRange) (hlow : 0 ≤ fees)
    (hhigh : view.totalValue + fees ≤ MAX_MONEY) : addI64 .fees fees fee = .ok (fees + fee) := by
  obtain ⟨-, hinputs, hnonneg, hfeeEq⟩ := checkTxInputs_eq_ok hfee
  have hspent := totalValue_spendAll htx.inputs_nodup fun i hi => by
    obtain ⟨k, hk⟩ := List.mem_iff_getElem?.mp hi
    obtain ⟨coin, hcoin, -, -⟩ := hinputs k i hk
    exact ⟨coin, hcoin⟩
  have hleft := (hview.spendAll tx.vin).totalValue_nonneg
  have houts := outputValue_nonneg fun out hout => (htx.values out hout).1
  exact addI64_of_money (by omega) (by omega)

theorem connectTx_noOverflow {height fees : Int} {tx : CTransaction} {view : CCoinsView} (hview : view.InRange)
    (hlow : 0 ≤ fees) (hhigh : view.totalValue + fees ≤ MAX_MONEY) : NoOverflow (connectTx height tx view fees) := by
  unfold connectTx
  apply NoOverflow.bind (checkTransaction_noOverflow tx)
  intro _ htx
  have hwf := wellFormed_of_checkTransaction htx
  apply NoOverflow.bind (checkTxInputs_noOverflow hwf hview height)
  intro fee hfee
  rw [addFee_of_totalValue hwf hfee hview hlow hhigh, bind_ok]
  apply NoOverflow.bind (spendInputs_noOverflow tx.vin view)
  intro spent _
  exact noOverflow_ok _

theorem connectTxs_noOverflow {height fees : Int} {txs : List CTransaction} {view : CCoinsView}
    (hview : view.InRange) (hlow : 0 ≤ fees) (hhigh : view.totalValue + fees ≤ MAX_MONEY) :
    NoOverflow (connectTxs height txs view fees) := by
  induction txs generalizing view fees with
  | nil => exact noOverflow_ok _
  | cons tx rest ih =>
    unfold connectTxs
    apply NoOverflow.bind (connectTx_noOverflow hview hlow hhigh)
    rintro ⟨mid, midFees⟩ hfirst
    obtain ⟨hmid, hmidFees, hmidTotal⟩ := (connectTx_eq_ok hfirst).supply hview
    exact ih hmid (by omega) (by omega)

/-- No sum formed while a block is validated overflows, over any view whose
    coins are in range and leave room for the subsidy. -/
theorem checkBlock_noOverflow {blk : CBlock} {height : Int} {view : CCoinsView} (hview : view.InRange)
    (hhigh : view.totalValue ≤ MAX_MONEY) : NoOverflow (checkBlock blk height view) := by
  unfold checkBlock
  split
  · exact noOverflow_error _
  split
  · exact noOverflow_error _
  split
  · exact noOverflow_error _
  split
  · exact noOverflow_error _
  split
  · exact noOverflow_error _
  apply NoOverflow.bind (connectTxs_noOverflow hview (le_refl 0) (by omega))
  rintro ⟨mid, fees⟩ hconnected
  obtain ⟨hmid, hfees, htotal⟩ := connectTxs_supply hconnected hview
  have hnonneg := hmid.totalValue_nonneg
  have hsubsidyLow := (getBlockSubsidy_bounds height).1
  have hsubsidyHigh := getBlockSubsidy_le_maxMoney height
  refine NoOverflow.bind ?_ fun last _ => noOverflow_ok _
  unfold connectCoinbase
  apply NoOverflow.bind (checkTransaction_noOverflow _)
  intro _ htx
  rw [(wellFormed_of_checkTransaction htx).sumValues, bind_ok]
  unfold isCoinbaseValueValid
  rw [addI64_of_money (by omega) (by omega), bind_ok]
  simp only [pure_bind]
  split
  · exact noOverflow_ok _
  · exact noOverflow_error _

end cdx
