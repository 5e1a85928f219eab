import Cdx.Consensus.Supply
import Cdx.Crypto.Sha256

namespace cdx

/-- The transaction spends the outpoint; a coinbase spends nothing. -/
def CTransaction.Spends (tx : CTransaction) (out : COutPoint) : Prop :=
  tx.isCoinBase = false ∧ out ∈ tx.vin.map CTxIn.prevout

/-- The coin that an output of the transaction should become. -/
def CTransaction.coinOf (tx : CTransaction) (txOut : CTxOut) (height : Int) : CUTXO where
  value := txOut.value
  scriptPubKey := txOut.scriptPubKey
  height := height
  isCoinbase := tx.isCoinBase

section Transition

variable [Crypto]

/-- The outpoint names an output of the transaction. -/
def CTransaction.Creates (tx : CTransaction) (out : COutPoint) (txOut : CTxOut) : Prop :=
  out.hash = getTxID tx ∧ tx.vout[out.n.toNat]? = some txOut

/-- A transaction of the list makes the coin and no later one spends it. -/
def Leaves (height : Int) (txs : List CTransaction) (out : COutPoint) (coin : CUTXO) : Prop :=
  ∃ pre tx post txOut, txs = pre ++ tx :: post ∧ tx.Creates out txOut ∧ coin = tx.coinOf txOut height ∧
    ∀ later ∈ post, ¬ later.Spends out

theorem leaves_cons_iff {height : Int} {tx : CTransaction} {rest : List CTransaction} {out : COutPoint} {coin : CUTXO} :
    Leaves height (tx :: rest) out coin ↔
      (∃ txOut, tx.Creates out txOut ∧ coin = tx.coinOf txOut height ∧ ∀ later ∈ rest, ¬ later.Spends out) ∨
        Leaves height rest out coin := by
  constructor
  · rintro ⟨pre, maker, post, txOut, hsplit, hcreates, hcoin, hlater⟩
    cases pre with
    | nil =>
      cases hsplit
      exact Or.inl ⟨txOut, hcreates, hcoin, hlater⟩
    | cons first pre =>
      cases hsplit
      exact Or.inr ⟨pre, maker, post, txOut, rfl, hcreates, hcoin, hlater⟩
  · rintro (⟨txOut, hcreates, hcoin, hlater⟩ | ⟨pre, maker, post, txOut, rfl, hcreates, hcoin, hlater⟩)
    · exact ⟨[], tx, rest, txOut, rfl, hcreates, hcoin, hlater⟩
    · exact ⟨tx :: pre, maker, post, txOut, rfl, hcreates, hcoin, hlater⟩

/-- One round of the first pass of `CheckBlock`, by outpoint. -/
theorem ConnectedTx.getCoin {height fees fees' : Int} {tx : CTransaction} {view view' : CCoinsView}
    (hconnected : ConnectedTx height tx view fees view' fees') (out : COutPoint) :
    (∃ txOut, tx.Creates out txOut ∧ view'.getCoin out = some (tx.coinOf txOut height)) ∨
      (∀ txOut, ¬ tx.Creates out txOut) ∧
        (tx.Spends out ∧ view'.getCoin out = none ∨ ¬ tx.Spends out ∧ view'.getCoin out = view.getCoin out) := by
  have hlength := hconnected.wellFormed.vout_length
  rw [MAX_TX_COUNT_PER_BLOCK] at hlength
  have hget := getCoin_addOutputs (getTxID tx) height (spendAll tx.vin view) (show 0 + tx.vout.length ≤ 2 ^ 32 by omega) out
  rw [← hconnected.view_eq, Nat.sub_zero] at hget
  by_cases hcreated : out.hash = getTxID tx ∧ out.n.toNat < tx.vout.length
  · left
    refine ⟨tx.vout[out.n.toNat], ⟨hcreated.1, List.getElem?_eq_getElem hcreated.2⟩, ?_⟩
    rw [hget, if_pos ⟨hcreated.1, Nat.zero_le _, by omega⟩, List.getElem?_eq_getElem hcreated.2, CTransaction.coinOf,
      hconnected.notCoinBase]
    rfl
  · right
    refine ⟨?_, ?_⟩
    · rintro txOut ⟨hhash, htxOut⟩
      exact hcreated ⟨hhash, (List.getElem?_eq_some_iff.mp htxOut).1⟩
    · rw [hget, if_neg (fun h => hcreated ⟨h.1, by omega⟩), getCoin_spendAll]
      by_cases hspent : out ∈ tx.vin.map CTxIn.prevout
      · exact Or.inl ⟨⟨hconnected.notCoinBase, hspent⟩, if_pos hspent⟩
      · exact Or.inr ⟨fun h => hspent h.2, if_neg hspent⟩

/-- What the first pass of `CheckBlock` leaves at an outpoint: a coin that the
    block makes and does not spend, nothing where the block spends, and else what
    was there before. -/
theorem connectTxs_getCoin {height fees fees' : Int} {txs : List CTransaction} {view view' : CCoinsView}
    (hconnect : connectTxs height txs view fees = .ok (view', fees')) (out : COutPoint) :
    (∃ coin, Leaves height txs out coin ∧ view'.getCoin out = some coin) ∨
      (∀ coin, ¬ Leaves height txs out coin) ∧
        ((∃ tx ∈ txs, tx.Spends out) ∧ view'.getCoin out = none ∨
          (∀ tx ∈ txs, ¬ tx.Spends out) ∧ view'.getCoin out = view.getCoin out) := by
  induction txs generalizing view fees with
  | nil =>
    cases hconnect
    right
    refine ⟨?_, Or.inr ⟨by simp, rfl⟩⟩
    rintro coin ⟨pre, tx, post, txOut, hsplit, -⟩
    simp at hsplit
  | cons tx rest ih =>
    obtain ⟨mid, midFees, hfirst, hrest⟩ := connectTxs_cons_eq_ok hconnect
    rcases ih hrest with ⟨coin, hleaves, hcoin⟩ | ⟨hnone, ⟨hspent, hcoin⟩ | ⟨hunspent, hcoin⟩⟩
    · exact Or.inl ⟨coin, leaves_cons_iff.mpr (Or.inr hleaves), hcoin⟩
    · right
      obtain ⟨spender, hspender, hspends⟩ := hspent
      refine ⟨?_, Or.inl ⟨⟨spender, List.mem_cons_of_mem _ hspender, hspends⟩, hcoin⟩⟩
      intro coin hleaves
      rcases leaves_cons_iff.mp hleaves with ⟨txOut, -, -, hlater⟩ | hleaves
      · exact hlater spender hspender hspends
      · exact hnone coin hleaves
    · -- The rest of the block does not touch the outpoint: the first transaction decides.
      rw [hcoin]
      rcases hfirst.getCoin out with ⟨txOut, hcreates, hmid⟩ | ⟨hnotCreated, hmid⟩
      · exact Or.inl ⟨_, leaves_cons_iff.mpr (Or.inl ⟨txOut, hcreates, rfl, hunspent⟩), hmid⟩
      · right
        refine ⟨?_, ?_⟩
        · intro coin hleaves
          rcases leaves_cons_iff.mp hleaves with ⟨txOut, hcreates, -, -⟩ | hleaves
          · exact hnotCreated txOut hcreates
          · exact hnone coin hleaves
        · rcases hmid with ⟨hspends, hmid⟩ | ⟨hspends, hmid⟩
          · exact Or.inl ⟨⟨tx, List.mem_cons_self, hspends⟩, hmid⟩
          · exact Or.inr ⟨List.forall_mem_cons.mpr ⟨hspends, hunspent⟩, hmid⟩

theorem connectTxs_notCoinBase {height fees fees' : Int} {txs : List CTransaction} {view view' : CCoinsView}
    (hconnect : connectTxs height txs view fees = .ok (view', fees')) : ∀ tx ∈ txs, tx.isCoinBase = false := by
  induction txs generalizing view fees with
  | nil => simp
  | cons tx rest ih =>
    obtain ⟨mid, midFees, hfirst, hrest⟩ := connectTxs_cons_eq_ok hconnect
    exact List.forall_mem_cons.mpr ⟨hfirst.notCoinBase, ih hrest⟩

/-- The first pass connects each transaction to what the ones before it leave. -/
theorem connectTxs_append_eq_ok {height fees fees' : Int} {pre post : List CTransaction} {tx : CTransaction}
    {view view' : CCoinsView} (hconnect : connectTxs height (pre ++ tx :: post) view fees = .ok (view', fees')) :
    ∃ before beforeFees after afterFees, connectTxs height pre view fees = .ok (before, beforeFees) ∧
      ConnectedTx height tx before beforeFees after afterFees := by
  induction pre generalizing view fees with
  | nil =>
    obtain ⟨after, afterFees, hfirst, -⟩ := connectTxs_cons_eq_ok hconnect
    exact ⟨view, fees, after, afterFees, rfl, hfirst⟩
  | cons first pre ih =>
    obtain ⟨⟨mid, midFees⟩, hfirst, hrest⟩ := bind_eq_ok_iff.mp hconnect
    obtain ⟨before, beforeFees, after, afterFees, hpre, hconnected⟩ := ih hrest
    refine ⟨before, beforeFees, after, afterFees, ?_, hconnected⟩
    unfold connectTxs
    rw [hfirst, bind_ok]
    exact hpre

/-- A coin that the transactions after the coinbase leave is not a coinbase coin. -/
theorem Leaves.isCoinbase_eq_false {height : Int} {txs : List CTransaction} {out : COutPoint} {coin : CUTXO}
    (hleaves : Leaves height txs out coin) (htxs : ∀ tx ∈ txs, tx.isCoinBase = false) : coin.isCoinbase = false := by
  obtain ⟨pre, tx, post, txOut, rfl, -, rfl, -⟩ := hleaves
  exact htxs tx (by simp)

/-- The outpoints that the transactions of the block spend, in order. -/
def CBlock.spends (blk : CBlock) : List COutPoint :=
  (blk.vtx.filter fun tx => !tx.isCoinBase).flatMap fun tx => tx.vin.map CTxIn.prevout

omit [Crypto] in
theorem CBlock.mem_spends_iff {blk : CBlock} {out : COutPoint} : out ∈ blk.spends ↔ ∃ tx ∈ blk.vtx, tx.Spends out := by
  simp only [CBlock.spends, List.mem_flatMap, List.mem_filter, Bool.not_eq_true', CTransaction.Spends, and_assoc]

omit [Crypto] in
theorem CBlock.nodup_spends_iff {blk : CBlock} :
    blk.spends.Nodup ↔ (∀ tx ∈ blk.vtx, tx.isCoinBase = false → (tx.vin.map CTxIn.prevout).Nodup) ∧
      blk.vtx.Pairwise fun p r => ∀ out, p.Spends out → ¬ r.Spends out := by
  rw [CBlock.spends, List.nodup_flatMap, List.pairwise_filter]
  refine and_congr ?_ ?_
  · simp only [List.mem_filter, Bool.not_eq_true', and_imp]
  · apply List.Pairwise.iff
    intro p r
    simp only [Bool.not_eq_true', Function.onFun, List.disjoint_left, CTransaction.Spends, not_and]
    exact ⟨fun h out hp hr => h hp.1 hr hp.2, fun h hp hr out hout => h out ⟨hp, hout⟩ hr⟩

/-- The transition that a block stands for: the outputs it makes and does not
    spend are in the view as they are in the block, what it spends is gone, the
    rest is as before, and it spends nothing twice. -/
structure UtxoTransition (blk : CBlock) (height : Int) (view view' : CCoinsView) : Prop where
  created : ∀ out coin, Leaves height blk.vtx out coin → view'.getCoin out = some coin
  removed : ∀ out ∈ blk.spends, (∀ coin, ¬ Leaves height blk.vtx out coin) → view'.getCoin out = none
  kept : ∀ out ∉ blk.spends, (∀ coin, ¬ Leaves height blk.vtx out coin) → view'.getCoin out = view.getCoin out
  once : blk.spends.Nodup

/-- The one coin that `CheckBlock` makes of the coinbase stands for all its outputs. -/
structure CoinbaseWhole (coinbase : CTransaction) (txs : List CTransaction) (height : Int) (view : CCoinsView) :
    Prop where
  first_unspent : ∀ tx ∈ txs, ¬ tx.Spends ⟨getTxID coinbase, 0⟩
  rest_worthless : outputValue coinbase.vout.tail = 0
  rest_present : ∀ out txOut, coinbase.Creates out txOut → out.n ≠ 0 → (∀ tx ∈ txs, ¬ tx.Spends out) →
    view.getCoin out = some (coinbase.coinOf txOut height)

/-- The blocks for which `CheckBlock` makes the transition they stand for. -/
structure PlainBlock (blk : CBlock) (height : Int) (view : CCoinsView) : Prop where
  coinbase : ∀ coinbase txs, blk.vtx = coinbase :: txs → CoinbaseWhole coinbase txs height view
  agree : ∀ out coin coin', Leaves height blk.vtx out coin → Leaves height blk.vtx out coin' → coin = coin'
  not_remade : ∀ (a b c : Nat) (p q r : CTransaction) (out : COutPoint) (txOut : CTxOut), a ≤ b → b < c →
    blk.vtx[a]? = some p → blk.vtx[b]? = some q → blk.vtx[c]? = some r →
      p.Spends out → q.Creates out txOut → ¬ r.Spends out

section Accepted

variable {blk : CBlock} {height fees : Int} {view view' mid : CCoinsView} {coinbase : CTransaction}
  {txs : List CTransaction}

theorem AcceptedBlock.mem_spends_iff (haccepted : AcceptedBlock blk height view view' coinbase txs mid fees)
    {out : COutPoint} : out ∈ blk.spends ↔ ∃ tx ∈ txs, tx.Spends out := by
  rw [CBlock.mem_spends_iff, haccepted.vtx_eq]
  constructor
  · rintro ⟨tx, htx, hspends⟩
    rcases List.mem_cons.mp htx with rfl | htx
    · rw [CTransaction.Spends, haccepted.coinbase_first] at hspends
      cases hspends.1
    · exact ⟨tx, htx, hspends⟩
  · rintro ⟨tx, htx, hspends⟩
    exact ⟨tx, List.mem_cons_of_mem _ htx, hspends⟩

theorem AcceptedBlock.getCoin (haccepted : AcceptedBlock blk height view view' coinbase txs mid fees)
    (out : COutPoint) :
    view'.getCoin out = if out = ⟨getTxID coinbase, 0⟩ then
      some (coinbaseCoin coinbase height (outputValue coinbase.vout)) else mid.getCoin out := by
  rw [haccepted.coinbase_connected.view_eq, CCoinsView.getCoin_addCoin]

/-- The merged coin is the one of the first output when the others are worth nothing. -/
theorem AcceptedBlock.coinbaseCoin_eq_iff (haccepted : AcceptedBlock blk height view view' coinbase txs mid fees)
    {first : CTxOut} {rest : List CTxOut} (hvout : coinbase.vout = first :: rest) :
    coinbaseCoin coinbase height (outputValue coinbase.vout) = coinbase.coinOf first height ↔ outputValue rest = 0 := by
  have hwf := haccepted.coinbase_connected.wellFormed
  have hvalue : (Int64.ofInt (outputValue coinbase.vout)).toInt = outputValue coinbase.vout :=
    coinbaseCoin_value hwf height
  have hsum : outputValue coinbase.vout = first.value.toInt + outputValue rest := by rw [hvout, outputValue_cons]
  simp only [coinbaseCoin, CTransaction.coinOf, hvout, haccepted.coinbase_first, CUTXO.mk.injEq, and_true]
  rw [← hvout, ← Int64.toInt_inj, hvalue]
  omega

/-- The coinbase makes its first output, and only transactions after it could spend it. -/
theorem AcceptedBlock.leaves_first (haccepted : AcceptedBlock blk height view view' coinbase txs mid fees)
    {first : CTxOut} {rest : List CTxOut} (hvout : coinbase.vout = first :: rest)
    (hunspent : ∀ tx ∈ txs, ¬ tx.Spends ⟨getTxID coinbase, 0⟩) :
    Leaves height blk.vtx ⟨getTxID coinbase, 0⟩ (coinbase.coinOf first height) := by
  rw [haccepted.vtx_eq, leaves_cons_iff]
  exact Or.inl ⟨first, ⟨rfl, by rw [hvout]; rfl⟩, rfl, hunspent⟩

/-- An outpoint that the block spends twice was made again in between. -/
theorem AcceptedBlock.nodup_spends (haccepted : AcceptedBlock blk height view view' coinbase txs mid fees)
    (hnotRemade : ∀ (a b c : Nat) (p q r : CTransaction) (out : COutPoint) (txOut : CTxOut), a ≤ b → b < c →
      blk.vtx[a]? = some p → blk.vtx[b]? = some q → blk.vtx[c]? = some r →
        p.Spends out → q.Creates out txOut → ¬ r.Spends out) : blk.spends.Nodup := by
  rw [CBlock.nodup_spends_iff]
  refine ⟨fun tx htx _ => (haccepted.wellFormed tx htx).inputs_nodup, ?_⟩
  rw [List.pairwise_iff_getElem]
  intro a c ha hc hac out hp hr
  have hpAt : blk.vtx[a]? = some blk.vtx[a] := List.getElem?_eq_getElem ha
  have hrAt : blk.vtx[c]? = some blk.vtx[c] := List.getElem?_eq_getElem hc
  generalize blk.vtx[a] = p at hp hpAt
  generalize blk.vtx[c] = r at hr hrAt
  rw [haccepted.vtx_eq] at hpAt hrAt hnotRemade
  -- The coinbase spends nothing, so both transactions are after it.
  obtain ⟨a, rfl⟩ : ∃ a', a = a' + 1 := by
    refine ⟨a - 1, ?_⟩
    by_contra hzero
    obtain rfl : a = 0 := by omega
    cases hpAt
    rw [CTransaction.Spends, haccepted.coinbase_first] at hp
    cases hp.1
  obtain ⟨c, rfl⟩ : ∃ c', c = c' + 1 := ⟨c - 1, by omega⟩
  rw [List.getElem?_cons_succ] at hpAt hrAt
  have hsplit : txs = txs.take c ++ r :: txs.drop (c + 1) := by
    obtain ⟨hlt, hr⟩ := List.getElem?_eq_some_iff.mp hrAt
    rw [← hr, List.getElem_cons_drop, List.take_append_drop]
  have hpBefore : (txs.take c)[a]? = some p := by rw [List.getElem?_take_of_lt (by omega), hpAt]
  have hconnected := haccepted.connected
  rw [hsplit] at hconnected
  obtain ⟨before, beforeFees, after, afterFees, hpre, hlast⟩ := connectTxs_append_eq_ok hconnected
  obtain ⟨i, hi, hout⟩ := List.mem_map.mp hr.2
  obtain ⟨coin, hcoin⟩ := hlast.input_found hi
  rw [hout] at hcoin
  rcases connectTxs_getCoin hpre out with ⟨found, hleaves, -⟩ | ⟨-, ⟨-, hnone⟩ | ⟨hunspent, -⟩⟩
  · obtain ⟨pre, q, post, txOut, htake, hcreates, -, hlater⟩ := hleaves
    have hqAt : (txs.take c)[pre.length]? = some q := by rw [htake]; simp
    have hb := (List.getElem?_eq_some_iff.mp hqAt).1
    rw [List.length_take] at hb
    refine hnotRemade (a + 1) (pre.length + 1) (c + 1) p q r out txOut ?_ (by omega) hpAt ?_ hrAt hp hcreates hr
    · -- No transaction after `q` spends the outpoint before `r` does.
      by_contra hafter
      rw [htake, List.getElem?_append_right (by omega), show a - pre.length = a - pre.length - 1 + 1 by omega,
        List.getElem?_cons_succ] at hpBefore
      exact hlater p (List.mem_of_getElem? hpBefore) hp
    · rw [List.getElem?_cons_succ, ← hqAt, List.getElem?_take_of_lt (by omega)]
  · rw [hcoin] at hnone
    cases hnone
  · exact hunspent p (List.mem_of_getElem? hpBefore) hp

/-- A block whose transition is right has a coinbase that the merged coin stands for. -/
theorem AcceptedBlock.coinbaseWhole (haccepted : AcceptedBlock blk height view view' coinbase txs mid fees)
    (htransition : UtxoTransition blk height view view') : CoinbaseWhole coinbase txs height view := by
  have hnotCoinBase := connectTxs_notCoinBase haccepted.connected
  obtain ⟨first, rest, hvout⟩ := List.exists_cons_of_ne_nil haccepted.coinbase_connected.wellFormed.vout_ne_nil
  have hmerged := haccepted.getCoin ⟨getTxID coinbase, 0⟩
  rw [if_pos rfl] at hmerged
  have hfirst : ∀ tx ∈ txs, ¬ tx.Spends ⟨getTxID coinbase, 0⟩ := by
    intro tx htx hspends
    by_cases hleaves : ∃ coin, Leaves height blk.vtx ⟨getTxID coinbase, 0⟩ coin
    · obtain ⟨coin, hleaves⟩ := hleaves
      have hcoin := htransition.created _ _ hleaves
      rw [haccepted.vtx_eq, leaves_cons_iff] at hleaves
      rcases hleaves with ⟨txOut, -, -, hlater⟩ | hleaves
      · exact hlater tx htx hspends
      · rw [hmerged, Option.some.injEq] at hcoin
        have hflag := hleaves.isCoinbase_eq_false hnotCoinBase
        rw [← hcoin] at hflag
        cases hflag
    · have hnone := htransition.removed _ (haccepted.mem_spends_iff.mpr ⟨tx, htx, hspends⟩) (not_exists.mp hleaves)
      rw [hmerged] at hnone
      cases hnone
  refine ⟨hfirst, ?_, ?_⟩
  · have hcoin := htransition.created _ _ (haccepted.leaves_first hvout hfirst)
    rw [hmerged, Option.some.injEq, haccepted.coinbaseCoin_eq_iff hvout] at hcoin
    rw [hvout]
    exact hcoin
  · intro out txOut hcreates hindex hunspent
    have hcoin : view'.getCoin out = some (coinbase.coinOf txOut height) := by
      apply htransition.created
      rw [haccepted.vtx_eq, leaves_cons_iff]
      exact Or.inl ⟨txOut, hcreates, rfl, hunspent⟩
    rw [haccepted.getCoin, if_neg (fun h => hindex (congrArg COutPoint.n h))] at hcoin
    rcases connectTxs_getCoin haccepted.connected out with ⟨coin, hleaves, hmid⟩ | ⟨-, ⟨⟨tx, htx, hspends⟩, -⟩ | ⟨-, hmid⟩⟩
    · -- A coin of another transaction under the id of the coinbase is no coinbase coin.
      rw [hmid, Option.some.injEq] at hcoin
      have hflag := hleaves.isCoinbase_eq_false hnotCoinBase
      rw [hcoin, CTransaction.coinOf, haccepted.coinbase_first] at hflag
      cases hflag
    · exact absurd hspends (hunspent tx htx)
    · rw [← hmid, hcoin]

/-- `CheckBlock` makes the transition of a plain block. -/
theorem AcceptedBlock.utxoTransition (haccepted : AcceptedBlock blk height view view' coinbase txs mid fees)
    (hplain : PlainBlock blk height view) : UtxoTransition blk height view view' := by
  obtain ⟨hfirst, hrest, hpresent⟩ := hplain.coinbase coinbase txs haccepted.vtx_eq
  obtain ⟨first, rest, hvout⟩ := List.exists_cons_of_ne_nil haccepted.coinbase_connected.wellFormed.vout_ne_nil
  rw [hvout, List.tail_cons] at hrest
  have hleavesFirst := haccepted.leaves_first hvout hfirst
  have hmerged := (haccepted.coinbaseCoin_eq_iff hvout).mpr hrest
  have hpass := connectTxs_getCoin haccepted.connected
  have hlift : ∀ {out coin}, Leaves height txs out coin → Leaves height blk.vtx out coin := by
    intro out coin hleaves
    rw [haccepted.vtx_eq]
    exact leaves_cons_iff.mpr (Or.inr hleaves)
  refine ⟨?_, ?_, ?_, haccepted.nodup_spends hplain.not_remade⟩
  · intro out coin hleaves
    rw [haccepted.getCoin]
    by_cases hout : out = ⟨getTxID coinbase, 0⟩
    · subst hout
      rw [if_pos rfl, hmerged, hplain.agree _ _ _ hleaves hleavesFirst]
    · rw [if_neg hout]
      rcases hpass out with ⟨found, hfound, hmid⟩ | ⟨hnone, hmid⟩
      · rw [hmid, hplain.agree _ _ _ hleaves (hlift hfound)]
      · -- Only the coinbase can have made the coin: the view had it before.
        rw [haccepted.vtx_eq] at hleaves
        rcases leaves_cons_iff.mp hleaves with ⟨txOut, hcreates, rfl, hunspent⟩ | hleaves
        · have hindex : out.n ≠ 0 := fun h => hout (COutPoint.ext hcreates.1 h)
          rcases hmid with ⟨⟨tx, htx, hspends⟩, -⟩ | ⟨-, hmid⟩
          · exact absurd hspends (hunspent tx htx)
          · rw [hmid, hpresent out txOut hcreates hindex hunspent]
        · exact absurd hleaves (hnone coin)
  · intro out hspent hnone
    obtain ⟨tx, htx, hspends⟩ := haccepted.mem_spends_iff.mp hspent
    rw [haccepted.getCoin, if_neg (by rintro rfl; exact hfirst tx htx hspends)]
    rcases hpass out with ⟨found, hfound, -⟩ | ⟨-, ⟨-, hmid⟩ | ⟨hunspent, -⟩⟩
    · exact absurd (hlift hfound) (hnone found)
    · exact hmid
    · exact absurd hspends (hunspent tx htx)
  · intro out hunspent hnone
    rw [haccepted.getCoin, if_neg (by rintro rfl; exact hnone _ hleavesFirst)]
    rcases hpass out with ⟨found, hfound, -⟩ | ⟨-, ⟨hspent, -⟩ | ⟨-, hmid⟩⟩
    · exact absurd (hlift hfound) (hnone found)
    · exact absurd (haccepted.mem_spends_iff.mpr hspent) hunspent
    · exact hmid

end Accepted

/-- `CheckBlock` makes the transition that an accepted block stands for exactly
    when the block is plain: nothing in it spends the coinbase's first output, the
    coinbase's other outputs are worth nothing and are spent in the block or in the
    view already, transactions of one id agree, and no outpoint is made again
    between two spends. -/
theorem checkBlock_utxoTransition_iff {blk : CBlock} {height fees : Int} {view view' : CCoinsView}
    (hcheck : checkBlock blk height view = .ok (view', fees)) :
    UtxoTransition blk height view view' ↔ PlainBlock blk height view := by
  obtain ⟨coinbase, txs, mid, haccepted⟩ := checkBlock_eq_ok hcheck
  constructor
  · intro htransition
    refine ⟨?_, ?_, ?_⟩
    · intro coinbase' txs' hvtx
      rw [haccepted.vtx_eq] at hvtx
      cases hvtx
      exact haccepted.coinbaseWhole htransition
    · intro out coin coin' hleaves hleaves'
      have hcoin := htransition.created out coin hleaves
      rw [htransition.created out coin' hleaves'] at hcoin
      exact (Option.some.inj hcoin).symm
    · intro a b c p q r out txOut hab hbc hp _ hr hspendsP _ hspendsR
      have honce := (CBlock.nodup_spends_iff.mp htransition.once).2
      obtain ⟨ha, rfl⟩ := List.getElem?_eq_some_iff.mp hp
      obtain ⟨hc, rfl⟩ := List.getElem?_eq_some_iff.mp hr
      exact List.pairwise_iff_getElem.mp honce a c ha hc (by omega) out hspendsP hspendsR
  · exact haccepted.utxoTransition

/-- A block of one coinbase that pays these values to the script that pushes `true`. -/
def payingBlock (values : List Int64) : CBlock :=
  let coinbase : CTransaction := {
    vin := [{ prevout := ⟨0, 0xffffffff⟩, scriptSig := ⟨[0x01, 0x01], show 2 < 2 ^ 64 by decide⟩ }]
    vout := values.map fun value => { value := value, scriptPubKey := ⟨[0x51], show 1 < 2 ^ 64 by decide⟩ } }
  { header := {
      prevBlockHash := 0
      merkleRoot := computeMerkleRootOfTxs [coinbase]
      timestamp := 0
      bits := 0
      nonce := 0 }
    vtx := [coinbase] }

end Transition

section

attribute [local instance] toolCrypto

theorem checkBlock_utxoTransition_single : ∃ view' fees,
    checkBlock (payingBlock [7]) 1 .empty = .ok (view', fees) ∧ UtxoTransition (payingBlock [7]) 1 .empty view' := by
  have haccepted : (checkBlock (payingBlock [7]) 1 .empty).toBool = true := by decide +kernel
  cases hcheck : checkBlock (payingBlock [7]) 1 .empty with
  | error reject =>
    rw [hcheck] at haccepted
    cases haccepted
  | ok result =>
    refine ⟨result.1, result.2, rfl, (checkBlock_utxoTransition_iff hcheck).mpr ⟨?_, ?_, ?_⟩⟩
    · intro coinbase txs hvtx
      cases hvtx
      refine ⟨by simp, rfl, ?_⟩
      rintro out txOut ⟨-, htxOut⟩ hindex
      have hlt := (List.getElem?_eq_some_iff.mp htxOut).1
      have hzero : out.n.toNat = 0 := Nat.lt_one_iff.mp hlt
      exact absurd (UInt32.toNat_inj.mp hzero) hindex
    · intro out coin coin' hleaves hleaves'
      rcases leaves_cons_iff.mp hleaves with ⟨txOut, hcreates, rfl, -⟩ | ⟨pre, tx, post, txOut, hsplit, -⟩
      · rcases leaves_cons_iff.mp hleaves' with ⟨txOut', hcreates', rfl, -⟩ | ⟨pre, tx, post, txOut, hsplit, -⟩
        · rw [Option.some.inj (hcreates.2.symm.trans hcreates'.2)]
        · simp at hsplit
      · simp at hsplit
    · intro a b c p q r out txOut hab hbc _ _ hr
      have hlt : c < 1 := (List.getElem?_eq_some_iff.mp hr).1
      omega

/-- The second output of a coinbase never enters the view: its value goes to the first. -/
theorem checkBlock_utxoTransition_fails : ∃ view' fees,
    checkBlock (payingBlock [7, 5]) 1 .empty = .ok (view', fees) ∧
      ¬ UtxoTransition (payingBlock [7, 5]) 1 .empty view' := by
  have haccepted : (checkBlock (payingBlock [7, 5]) 1 .empty).toBool = true := by decide +kernel
  cases hcheck : checkBlock (payingBlock [7, 5]) 1 .empty with
  | error reject =>
    rw [hcheck] at haccepted
    cases haccepted
  | ok result =>
    refine ⟨result.1, result.2, rfl, ?_⟩
    intro htransition
    obtain ⟨coinbase, txs, mid, hblk⟩ := checkBlock_eq_ok hcheck
    have hworthless := (hblk.coinbaseWhole htransition).rest_worthless
    have hvtx := hblk.vtx_eq
    cases hvtx
    exact absurd hworthless (by decide)

end

end cdx
