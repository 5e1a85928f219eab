import Cdx.Consensus.Transition

namespace cdx

/-- What the output of a transaction is worth as a coin, and under which script. A coinbase
    becomes one coin of its whole value. -/
def CTransaction.paid (tx : CTransaction) (n : UInt32) : Option (Int64 × Script) :=
  if tx.isCoinBase then tx.vout.head?.map fun first => (Int64.ofInt (outputValue tx.vout), first.scriptPubKey)
  else (tx.vout[n.toNat]?).map fun txOut => (txOut.value, txOut.scriptPubKey)

/-- The view still pays out what the other view holds at the outpoint. -/
def StillPays (view view' : CCoinsView) (height : Int) (out : COutPoint) : Prop :=
  ∀ coin, view.getCoin out = some coin → ∃ coin', view'.getCoin out = some coin' ∧ coin'.isSpendable height = true ∧
    coin'.value = coin.value ∧ coin'.scriptPubKey = coin.scriptPubKey

/-- Distinct inputs whose coins are all there can be spent. -/
theorem spendInputs_of_found {ins : List CTxIn} {view : CCoinsView} (hnodup : (ins.map CTxIn.prevout).Nodup)
    (hfound : ∀ i ∈ ins, ∃ coin, view.getCoin i.prevout = some coin) : spendInputs ins view = .ok (spendAll ins view) := by
  induction ins generalizing view with
  | nil => rfl
  | cons i rest ih =>
    rw [List.map_cons, List.nodup_cons] at hnodup
    rw [List.forall_mem_cons] at hfound
    obtain ⟨coin, hcoin⟩ := hfound.1
    have hfirst : view.spendCoin i.prevout = (true, (view.spendCoin i.prevout).2) := by
      refine Prod.ext ?_ rfl
      rw [CCoinsView.spendCoin_fst, hcoin]
      rfl
    unfold spendInputs
    rw [hfirst]
    apply ih hnodup.2
    intro i' hi'
    rw [CCoinsView.getCoin_spendCoin, if_neg]
    · exact hfound.2 i' hi'
    · intro hsame
      exact hnodup.1 (hsame ▸ List.mem_map_of_mem hi')

section Origin

variable [Crypto]

/-- The coin stands where the transaction puts it, with the value and the script the
    transaction gives it. -/
def CTransaction.Made (tx : CTransaction) (out : COutPoint) (coin : CUTXO) : Prop :=
  out.hash = getTxID tx ∧ tx.paid out.n = some (coin.value, coin.scriptPubKey)

theorem CTransaction.Made.script {tx : CTransaction} {out : COutPoint} {coin : CUTXO} (hmade : tx.Made out coin) :
    ∃ txOut ∈ tx.vout, coin.scriptPubKey = txOut.scriptPubKey := by
  have hpaid := hmade.2
  unfold paid at hpaid
  split at hpaid
  · obtain ⟨first, hfirst, hpair⟩ := Option.map_eq_some_iff.mp hpaid
    exact ⟨first, List.mem_of_head? hfirst, (Prod.mk.inj hpair).2.symm⟩
  · obtain ⟨txOut, htxOut, hpair⟩ := Option.map_eq_some_iff.mp hpaid
    exact ⟨txOut, List.mem_of_getElem? htxOut, (Prod.mk.inj hpair).2.symm⟩

/-- A transaction determines the value and the script of its coins, whatever the block. -/
theorem CTransaction.Made.same {tx : CTransaction} {out : COutPoint} {coin coin' : CUTXO} (hmade : tx.Made out coin)
    (hmade' : tx.Made out coin') : coin'.value = coin.value ∧ coin'.scriptPubKey = coin.scriptPubKey := by
  have hpaid := hmade'.2.symm.trans hmade.2
  rw [Option.some.injEq, Prod.mk.injEq] at hpaid
  exact hpaid

/-- A coin of the view after a block was there before, or has the block's height and was
    made by one of its transactions. -/
theorem checkBlock_made {blk : CBlock} {height fees : Int} {view view' : CCoinsView}
    (hcheck : checkBlock blk height view = .ok (view', fees)) {out : COutPoint} {coin : CUTXO}
    (hcoin : view'.getCoin out = some coin) :
    view.getCoin out = some coin ∨ coin.height = height ∧ ∃ tx ∈ blk.vtx, tx.Made out coin := by
  obtain ⟨coinbase, txs, mid, haccepted⟩ := checkBlock_eq_ok hcheck
  rw [haccepted.getCoin] at hcoin
  rw [haccepted.vtx_eq]
  split at hcoin
  next hout =>
    cases hcoin
    obtain ⟨first, rest, hvout⟩ := List.exists_cons_of_ne_nil haccepted.coinbase_connected.wellFormed.vout_ne_nil
    refine Or.inr ⟨rfl, coinbase, List.mem_cons_self, by rw [hout], ?_⟩
    rw [CTransaction.paid, if_pos haccepted.coinbase_first]
    simp [coinbaseCoin, hvout]
  · rcases connectTxs_getCoin haccepted.connected out with ⟨found, hleaves, hmid⟩ | ⟨-, ⟨-, hmid⟩ | ⟨-, hmid⟩⟩
    · rw [hmid, Option.some.injEq] at hcoin
      subst hcoin
      obtain ⟨pre, tx, post, txOut, rfl, hcreates, rfl, -⟩ := hleaves
      have hkind := connectTxs_notCoinBase haccepted.connected tx (by simp)
      refine Or.inr ⟨rfl, tx, by simp, hcreates.1, ?_⟩
      rw [CTransaction.paid, hkind, hcreates.2]
      rfl
    · rw [hmid] at hcoin
      cases hcoin
    · rw [hmid] at hcoin
      exact Or.inl hcoin

theorem sumInputs_of_stillPays {tx : CTransaction} {view view' : CCoinsView} {height height' inSum result : Int}
    {index : Nat} {ins : List CTxIn} (hsum : sumInputs tx view height index inSum ins = .ok result)
    (hpays : ∀ i ∈ ins, StillPays view view' height' i.prevout) :
    sumInputs tx view' height' index inSum ins = .ok result := by
  induction ins generalizing index inSum with
  | nil => exact hsum
  | cons i rest ih =>
    rw [List.forall_mem_cons] at hpays
    unfold sumInputs at hsum ⊢
    cases hcoin : view.getCoin i.prevout with
    | none =>
      simp only [hcoin] at hsum
      cases hsum
    | some coin =>
      obtain ⟨coin', hcoin', hspendable, hvalue, hscript⟩ := hpays.1 coin hcoin
      simp only [hcoin] at hsum
      split at hsum
      · cases hsum
      split at hsum
      · cases hsum
      next hverified =>
        obtain ⟨next, hnext, htail⟩ := bind_eq_ok_iff.mp hsum
        split at htail
        · cases htail
        next hle =>
          simp only [hcoin', hspendable, hscript, hvalue, hverified, hnext, Bool.true_eq_false, if_false, bind_ok]
          rw [if_neg hle]
          exact ih htail hpays.2

/-- `CheckTxInputs` finds the same fee over a view that still pays out the inputs. -/
theorem checkTxInputs_of_stillPays {tx : CTransaction} {view view' : CCoinsView} {height height' fee : Int}
    (hfee : checkTxInputs tx view height = .ok fee) (hpays : ∀ i ∈ tx.vin, StillPays view view' height' i.prevout) :
    checkTxInputs tx view' height' = .ok fee := by
  unfold checkTxInputs at hfee ⊢
  split at hfee
  · cases hfee
  next hkind =>
    obtain ⟨inSum, hin, hrest⟩ := bind_eq_ok_iff.mp hfee
    rw [if_neg hkind, sumInputs_of_stillPays hin hpays, bind_ok]
    exact hrest

end Origin

end cdx
